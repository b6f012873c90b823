import BitcoinCrawl.Proofs.Crawl.Confinement

set_option autoImplicit false

/-! # The course of a session

What a session receives, and when and why it ends, said without running it: results arrive at their instants, and
while it waits for one the session may be stopped or fall idle. A received result is dealt with to the end before
the next one. -/

namespace BitcoinCrawl

/-- One list is what another is without some elements of a kind. -/
inductive Without {α : Type} (kind : α → Prop) : List α → List α → Prop where
  | nil : Without kind [] []
  | keep (a : α) {l l' : List α} (rest : Without kind l l') : Without kind (a :: l) (a :: l')
  | drop (a : α) {l l' : List α} (h : kind a) (rest : Without kind l l') : Without kind (a :: l) l'

theorem Without.append_left {α : Type} {kind : α → Prop} {l l' : List α} (front : List α)
    (h : Without kind l l') : Without kind (front ++ l) (front ++ l') := by
  induction front with
  | nil => exact h
  | cons a front ih => exact .keep a ih

namespace Session

/-! ## Results and interruptions -/

/-- The results that deliveries bring from an instant on, each with the instant at which it arrives. -/
def timeline (now : Nat) : List Delivery → List (Nat × Received)
  | [] => [(now, .error (.transport .endOfStream))]
  | .result r :: rest => (now, r) :: timeline now rest
  | .delay span :: rest => timeline (now + span) rest
  | .hold :: _ => []

/-- Nothing arrives before the present instant. -/
theorem le_of_timeline (ds : List Delivery) (now : Nat) :
    ∀ t ∈ (timeline now ds).head?.map Prod.fst, now ≤ t := by
  induction ds generalizing now with
  | nil =>
      intro t ht
      cases ht
      exact Nat.le_refl _
  | cons d ds ih =>
      intro t ht
      cases d with
      | result _ =>
          cases ht
          exact Nat.le_refl _
      | delay span => exact Nat.le_trans (Nat.le_add_right now span) (ih (now + span) t ht)
      | hold => cases ht

/-- When and why a session ends. -/
structure Ending where
  instant : Nat
  reason : SessionEnd
  deriving DecidableEq

/-- Whether a session ends before it receives what arrives at some instant. At the same instant a stop comes first,
    and the end of its patience does not. -/
def Ending.forestalls (ending : Ending) (t : Nat) : Bool :=
  match ending.reason with
  | .cancelled => ending.instant ≤ t
  | _ => ending.instant < t

/-- How the wait that began at some instant ends if nothing arrives: by a stop, or because it has been idle for too
    long before. -/
def silentEnding (idle : Option Millis) (stopAt : Option Nat) (since : Nat) : Option Ending :=
  match stopAt, idle with
  | none, none => none
  | some stop, none => some ⟨max since stop, .cancelled⟩
  | none, some span => some ⟨since + span, .idle⟩
  | some stop, some span =>
    if stop ≤ since + span then some ⟨max since stop, .cancelled⟩ else some ⟨since + span, .idle⟩

/-- How the wait that began at some instant ends before the next result, which arrives at another, if at all. -/
def interruption (idle : Option Millis) (stopAt : Option Nat) (since : Nat) (next : Option Nat) : Option Ending :=
  (silentEnding idle stopAt since).filter fun ending => next.all ending.forestalls

/-- Why a received result is the last one, if it is. -/
def lastFor? : Received → Option SessionEnd
  | .ok _ => none
  | .error fault =>
    if fault.isRecoverable then none else if fault.isEndOfStream then some .closed else some .failed

/-- The messages among received results. -/
def messages (rs : List Received) : List Message := rs.filterMap Except.toOption

/-- What a session that waits since some instant receives of the results that arrive, and how it ends, if it does. -/
def course (idle : Option Millis) (stopAt : Option Nat) (since : Nat) :
    List (Nat × Received) → List Received × Option Ending
  | [] => ([], interruption idle stopAt since none)
  | (t, r) :: rest =>
    match interruption idle stopAt since (some t) with
    | some ending => ([], some ending)
    | none =>
      match lastFor? r with
      | some reason => ([r], some ⟨t, reason⟩)
      | none =>
        let (received, ending) := course idle stopAt t rest
        (r :: received, ending)

section Interruption

variable {idle : Option Millis} {stopAt : Option Nat} {since : Nat} {ending : Ending}

theorem silentEnding_cases (h : silentEnding idle stopAt since = some ending) :
    (∃ stop ∈ stopAt, (∀ span ∈ idle, stop ≤ since + span) ∧ ending = ⟨max since stop, .cancelled⟩) ∨
      ∃ span ∈ idle, (∀ stop ∈ stopAt, since + span < stop) ∧ ending = ⟨since + span, .idle⟩ := by
  unfold silentEnding at h
  split at h
  next => cases h
  next stop => exact .inl ⟨stop, rfl, nofun, (Option.some.inj h).symm⟩
  next span => exact .inr ⟨span, rfl, nofun, (Option.some.inj h).symm⟩
  next stop span =>
    split at h
    next hfirst => exact .inl ⟨stop, rfl, by rintro _ ⟨⟩; exact hfirst, (Option.some.inj h).symm⟩
    next hfirst =>
      exact .inr ⟨span, rfl, by rintro _ ⟨⟩; exact Nat.lt_of_not_le hfirst, (Option.some.inj h).symm⟩

theorem Ending.forestalls_later {t t' : Nat} (h : ending.forestalls t = true) (hlater : t ≤ t') :
    ending.forestalls t' = true := by
  obtain ⟨instant, reason⟩ := ending
  cases reason with
  | cancelled => exact decide_eq_true (Nat.le_trans (of_decide_eq_true h) hlater)
  | _ => exact decide_eq_true (Nat.lt_of_lt_of_le (of_decide_eq_true h) hlater)

theorem Ending.le_of_forestalls {t : Nat} (h : ending.forestalls t = true) : ending.instant ≤ t := by
  obtain ⟨instant, reason⟩ := ending
  cases reason with
  | cancelled => exact of_decide_eq_true h
  | _ => exact Nat.le_of_lt (of_decide_eq_true h)

theorem Ending.le_of_not_forestalls {t : Nat} (h : ¬ ending.forestalls t = true) : t ≤ ending.instant := by
  obtain ⟨instant, reason⟩ := ending
  cases reason with
  | cancelled => exact Nat.le_of_not_le fun hle => h (decide_eq_true hle)
  | _ => exact Nat.le_of_not_lt fun hlt => h (decide_eq_true hlt)

/-- What ends the wait for a result also ends the wait for a later one. -/
theorem interruption_later {wake : Nat} {next : Option Nat} (hlater : ∀ t ∈ next, wake ≤ t)
    (h : interruption idle stopAt since (some wake) = some ending) :
    interruption idle stopAt since next = some ending := by
  obtain ⟨hsilent, hwake⟩ := Option.filter_eq_some_iff.mp h
  refine Option.filter_eq_some_iff.mpr ⟨hsilent, ?_⟩
  rw [Option.all_eq_true]
  exact fun t ht => Ending.forestalls_later hwake (hlater t ht)

/-- A session that still waits has not been stopped, and has not been idle for too long before. -/
theorem open_of_interruption {t : Nat} (hsince : since ≤ t)
    (h : interruption idle stopAt since (some t) = none) :
    (∀ stop ∈ stopAt, t < stop) ∧ ∀ span ∈ idle, t ≤ since + span := by
  have hopen : ∀ ending, silentEnding idle stopAt since = some ending → ¬ ending.forestalls t = true :=
    Option.filter_eq_none_iff.mp h
  unfold silentEnding at hopen
  cases stopAt with
  | none =>
      cases idle with
      | none => exact ⟨nofun, nofun⟩
      | some span =>
          have hidle := hopen _ rfl
          simp only [Ending.forestalls, decide_eq_true_eq] at hidle
          exact ⟨nofun, by rintro _ ⟨⟩; omega⟩
  | some stop =>
      cases idle with
      | none =>
          have hstop := hopen _ rfl
          simp only [Ending.forestalls, decide_eq_true_eq] at hstop
          exact ⟨by rintro _ ⟨⟩; omega, nofun⟩
      | some span =>
          simp only at hopen
          split at hopen
          next hfirst =>
            have hstop := hopen _ rfl
            simp only [Ending.forestalls, decide_eq_true_eq] at hstop
            exact ⟨by rintro _ ⟨⟩; omega, by rintro _ ⟨⟩; omega⟩
          next hfirst =>
            have hidle := hopen _ rfl
            simp only [Ending.forestalls, decide_eq_true_eq] at hidle
            exact ⟨by rintro _ ⟨⟩; omega, by rintro _ ⟨⟩; omega⟩

/-- A session that nothing interrupts though nothing arrives has no end of its patience. -/
theorem endless_of_interruption (h : interruption idle stopAt since none = none) : idle = none := by
  have hsilent : silentEnding idle stopAt since = none :=
    Option.eq_none_iff_forall_ne_some.mpr fun ending hending => Option.filter_eq_none_iff.mp h ending hending rfl
  unfold silentEnding at hsilent
  cases stopAt with
  | none =>
      cases idle with
      | none => rfl
      | some span => cases hsilent
  | some stop =>
      cases idle with
      | none => rfl
      | some span =>
          simp only at hsilent
          split at hsilent <;> cases hsilent

theorem course_of_interruption {arrivals : List (Nat × Received)}
    (h : interruption idle stopAt since (arrivals.head?.map Prod.fst) = some ending) :
    course idle stopAt since arrivals = ([], some ending) := by
  cases arrivals with
  | nil => exact congrArg (Prod.mk []) h
  | cons arrival rest =>
      obtain ⟨t, r⟩ := arrival
      have hinterrupted : interruption idle stopAt since (some t) = some ending := h
      rw [course, hinterrupted]

end Interruption

end Session

/-! ## Dealing with results -/

namespace Shared

/-- Deal with a received result to the end. -/
def take (e : Endpoint) (r : Received) (s : Shared) : Shared :=
  match s.judge e r with
  | (s, .handle notice) =>
    let (after, due) := s.handle e notice
    if due then after.signal else after
  | (s, _) => s

/-- Deal with received results in order. -/
def takeAll (e : Endpoint) (rs : List Received) (s : Shared) : Shared := rs.foldl (fun s r => s.take e r) s

theorem take_ok (e : Endpoint) (m : Message) (s : Shared) :
    s.take e (.ok m) = (({ s with metrics := s.metrics.countIn } : Shared).attend e m).1 := rfl

/-- What a message leads to depends neither on the clock, nor on whether the crawl was stopped, nor on the log. -/
theorem attend_elsewhere (e : Endpoint) (m : Message) (s : Shared) :
    ∃ lines : Log, ∀ now cancelled log, (({ s with now, cancelled, log } : Shared).attend e m).1 =
      { (s.attend e m).1 with now, cancelled, log := log ++ lines } := by
  simp only [attend, handle]
  cases Notice.ofMessage m with
  | addr es | addrV2 es =>
      refine ⟨#[.info s!"{e} announced {es.length} addresses, {(s.registry.add es).2} new"],
        fun now cancelled log => ?_⟩
      simp only [handleAnnounced, add]
      by_cases hnew : 0 < (s.registry.add es).2
      · simp only [hnew]
        rfl
      · simp only [hnew]
        rfl
  | pong nonce =>
      simp only [handlePong]
      cases s.registry.recordPong e nonce with
      | ok result => exact ⟨#[_], fun _ _ _ => rfl⟩
      | error fault => exact ⟨#[_], fun _ _ _ => rfl⟩
  | _ => exact ⟨#[_], fun _ _ _ => rfl⟩

/-- The warning of a session that skips what it could not make sense of. -/
def skipWarning (e : Endpoint) (fault : ConnectionFault) : LogLine :=
  .warn s!"Skipping message from {e}: {fault.message}"

theorem take_skipped {fault : ConnectionFault} (h : fault.isRecoverable = true) (e : Endpoint) (s : Shared) :
    s.take e (.error fault) = s.report (skipWarning e fault) := by
  simp only [take, judge, h, if_true]
  rfl

/-- An error leaves a line in the log at most. -/
theorem take_error (e : Endpoint) (fault : ConnectionFault) :
    ∃ lines : Log, ∀ s : Shared, s.take e (.error fault) = { s with log := s.log ++ lines } := by
  by_cases hskip : fault.isRecoverable = true
  · exact ⟨#[_], fun s => take_skipped hskip e s⟩
  · simp only [take, judge, hskip]
    by_cases hend : fault.isEndOfStream = true
    · simp only [hend]
      exact ⟨#[], fun s => by simp⟩
    · simp only [hend]
      exact ⟨#[_], fun s => rfl⟩

theorem take_elsewhere (e : Endpoint) (r : Received) (s : Shared) :
    ∃ lines : Log, ∀ now cancelled log, ({ s with now, cancelled, log } : Shared).take e r =
      { s.take e r with now, cancelled, log := log ++ lines } := by
  cases r with
  | ok m => exact attend_elsewhere e m { s with metrics := s.metrics.countIn }
  | error fault =>
      obtain ⟨lines, hlines⟩ := take_error e fault
      refine ⟨lines, fun now cancelled log => ?_⟩
      rw [hlines, hlines]

theorem take_clock (e : Endpoint) (r : Received) (s : Shared) :
    (s.take e r).now = s.now ∧ (s.take e r).cancelled = s.cancelled := by
  obtain ⟨lines, hlines⟩ := take_elsewhere e r s
  have hnow := congrArg Shared.now (hlines s.now s.cancelled s.log)
  have hcancelled := congrArg Shared.cancelled (hlines s.now s.cancelled s.log)
  exact ⟨hnow, hcancelled⟩

theorem take_relogged (e : Endpoint) (r : Received) (s : Shared) :
    ∃ lines : Log, ∀ log, ({ s with log } : Shared).take e r = { s.take e r with log := log ++ lines } := by
  obtain ⟨lines, hlines⟩ := take_elsewhere e r s
  obtain ⟨hnow, hcancelled⟩ := take_clock e r s
  refine ⟨lines, fun log => (hlines s.now s.cancelled log).trans ?_⟩
  rw [← hnow, ← hcancelled]

/-- So results can be dealt with at any time. -/
theorem takeAll_elsewhere (e : Endpoint) (rs : List Received) (s : Shared) :
    ∃ lines : Log, ∀ now cancelled log, ({ s with now, cancelled, log } : Shared).takeAll e rs =
      { s.takeAll e rs with now, cancelled, log := log ++ lines } := by
  induction rs generalizing s with
  | nil => exact ⟨#[], fun now cancelled log => by simp [takeAll]⟩
  | cons r rest ih =>
      obtain ⟨first, hfirst⟩ := take_elsewhere e r s
      obtain ⟨more, hmore⟩ := ih (s.take e r)
      refine ⟨first ++ more, fun now cancelled log => ?_⟩
      show ((({ s with now, cancelled, log } : Shared).take e r).takeAll e rest) = _
      rw [hfirst, hmore, Array.append_assoc]
      rfl

theorem takeAll_at (e : Endpoint) (rs : List Received) (s : Shared) (now : Nat) (cancelled : Bool) :
    ({ s with now, cancelled } : Shared).takeAll e rs = { s.takeAll e rs with now, cancelled } := by
  obtain ⟨lines, hlines⟩ := takeAll_elsewhere e rs s
  have hlog : (s.takeAll e rs).log = s.log ++ lines := congrArg log (hlines s.now s.cancelled s.log)
  refine (hlines now cancelled s.log).trans ?_
  rw [← hlog]

/-! ## What results amount to -/

theorem takeAll_registry (e : Endpoint) (rs : List Received) (s : Shared) :
    (s.takeAll e rs).registry = s.registry.hearAll e (Session.messages rs) := by
  induction rs generalizing s with
  | nil => rfl
  | cons r rest ih =>
      refine (ih (s.take e r)).trans ?_
      cases r with
      | ok m =>
          rw [take_ok, attend_registry]
          rfl
      | error fault =>
          obtain ⟨lines, hlines⟩ := take_error e fault
          rw [hlines]
          rfl

theorem attend_metrics (e : Endpoint) (m : Message) (s : Shared) : (s.attend e m).1.metrics = s.metrics := by
  have hhandle : (s.handle e (.ofMessage m)).1.metrics = s.metrics := by
    cases Notice.ofMessage m with
    | pong nonce =>
        simp only [handle, handlePong]
        cases s.registry.recordPong e nonce <;> rfl
    | _ => rfl
  simp only [attend]
  split <;> exact hhandle

/-- Every message is counted, and nothing else is. -/
theorem takeAll_messagesIn (e : Endpoint) (rs : List Received) (s : Shared) :
    (s.takeAll e rs).metrics.messagesIn = s.metrics.messagesIn + .ofNat (Session.messages rs).length := by
  induction rs generalizing s with
  | nil => exact (UInt64.add_zero _).symm
  | cons r rest ih =>
      refine (ih (s.take e r)).trans ?_
      cases r with
      | ok m =>
          rw [take_ok, attend_metrics]
          show s.metrics.messagesIn + 1 + _ = s.metrics.messagesIn + .ofNat (_ + 1)
          rw [UInt64.ofNat_add, UInt64.add_assoc, UInt64.add_comm 1]
          rfl
      | error fault =>
          obtain ⟨lines, hlines⟩ := take_error e fault
          rw [hlines]
          rfl

end Shared

end BitcoinCrawl
