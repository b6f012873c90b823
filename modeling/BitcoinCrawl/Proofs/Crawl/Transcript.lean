import BitcoinCrawl.Proofs.Crawl.Network
import BitcoinCrawl.Proofs.Crawl.Visit
import BitcoinCrawl.Proofs.Peering.Exchange
import BitcoinCrawl.Proofs.Registry.Details

set_option autoImplicit false

/-! # What happens on the connections of a crawl

A `Transcript` lists, with the endpoint of the connection each time, what workers receive, which pings they send
and which pongs they act on; `Crawl.transcript` reads it off the steps of a crawl. A dial and a session are
`Attested` by what has happened on their connection if nothing but that explains where they stand, and each of
their steps keeps it so. -/

namespace BitcoinCrawl

/-! ## Proceedings -/

/-- Something that happens on a connection. -/
inductive Occurrence where
  | received (result : Received)
  /-- A ping was sent. -/
  | pinged (nonce : UInt64)
  /-- A pong was acted on. -/
  | ponged (nonce : UInt64)

/-- What has happened on a connection, oldest first. -/
abbrev Proceedings := List Occurrence

namespace Proceedings

def received (p : Proceedings) : List Received :=
  p.filterMap fun | .received r => some r | _ => none

def pings (p : Proceedings) : List UInt64 :=
  p.filterMap fun | .pinged nonce => some nonce | _ => none

def pongs (p : Proceedings) : List UInt64 :=
  p.filterMap fun | .ponged nonce => some nonce | _ => none

/-- The first version message received. -/
def introduction? (p : Proceedings) : Option VersionMessage := p.received.findSome? Handshake.version?

/-- The nonce of a received pong. -/
def pong? : Received → Option UInt64
  | .ok (.pong nonce) => some nonce
  | _ => none

/-- No ping was sent, and no pong acted on. -/
def Quiet (p : Proceedings) : Prop := p.pings = [] ∧ p.pongs = []

/-- A peer is as the first version message received says. -/
def Introduces (p : Proceedings) (e : Endpoint) (peer : Peer) : Prop :=
  ∃ v, p.introduction? = some v ∧ peer = Handshake.introduced { endpoint := e } v

theorem received_append (p q : Proceedings) : received (p ++ q) = p.received ++ q.received :=
  List.filterMap_append

@[simp] theorem received_append_received (p : Proceedings) (rs : List Received) :
    received (p ++ rs.map .received) = p.received ++ rs := by
  simp [received, List.filterMap_map]

@[simp] theorem pings_append_received (p : Proceedings) (rs : List Received) :
    pings (p ++ rs.map .received) = p.pings := by
  simp [pings, List.filterMap_map]

@[simp] theorem pongs_append_received (p : Proceedings) (rs : List Received) :
    pongs (p ++ rs.map .received) = p.pongs := by
  simp [pongs, List.filterMap_map]

@[simp] theorem received_append_pinged (p : Proceedings) (nonce : UInt64) :
    received (p ++ [.pinged nonce]) = p.received := by
  simp [received]

@[simp] theorem pings_append_pinged (p : Proceedings) (nonce : UInt64) :
    pings (p ++ [.pinged nonce]) = p.pings ++ [nonce] := by
  simp [pings]

@[simp] theorem pongs_append_pinged (p : Proceedings) (nonce : UInt64) :
    pongs (p ++ [.pinged nonce]) = p.pongs := by
  simp [pongs]

@[simp] theorem received_append_ponged (p : Proceedings) (nonces : List UInt64) :
    received (p ++ nonces.map .ponged) = p.received := by
  simp [received, List.filterMap_map]

@[simp] theorem pings_append_ponged (p : Proceedings) (nonces : List UInt64) :
    pings (p ++ nonces.map .ponged) = p.pings := by
  simp [pings, List.filterMap_map]

@[simp] theorem pongs_append_ponged (p : Proceedings) (nonces : List UInt64) :
    pongs (p ++ nonces.map .ponged) = p.pongs ++ nonces := by
  simp [pongs, List.filterMap_map]

/-- What comes later does not change what came first. -/
theorem introduction?_append {p : Proceedings} {v : VersionMessage} (h : p.introduction? = some v)
    (q : Proceedings) : introduction? (p ++ q) = some v := by
  unfold introduction? at h ⊢
  rw [received_append, List.findSome?_append, h]
  rfl

theorem Introduces.append {p : Proceedings} {e : Endpoint} {peer : Peer} (h : p.Introduces e peer)
    (q : Proceedings) : Introduces (p ++ q) e peer := by
  obtain ⟨v, hv, hpeer⟩ := h
  exact ⟨v, introduction?_append hv q, hpeer⟩

/-- To receive something is neither to ping nor to act on a pong. -/
theorem Quiet.receive {p : Proceedings} (h : p.Quiet) (rs : List Received) :
    Quiet (p ++ rs.map .received) :=
  ⟨(pings_append_received p rs).trans h.1, (pongs_append_received p rs).trans h.2⟩

end Proceedings

/-- What has happened on the connections of a crawl, oldest first, with the endpoint each is to. -/
abbrev Transcript := List (Endpoint × Occurrence)

namespace Transcript

/-- What has happened on the connection to an endpoint. -/
def about (t : Transcript) (e : Endpoint) : Proceedings :=
  t.filterMap fun entry => if entry.1 = e then some entry.2 else none

theorem about_append_own (t : Transcript) (e : Endpoint) (p : Proceedings) :
    about (t ++ p.map (e, ·)) e = t.about e ++ p := by
  simp [about, List.filterMap_append, List.filterMap_map]

theorem about_append_other {e e' : Endpoint} (t : Transcript) (p : Proceedings) (h : e' ≠ e) :
    about (t ++ p.map (e, ·)) e' = t.about e' := by
  simp [about, List.filterMap_append, List.filterMap_map, h.symm]

theorem about_append (t t' : Transcript) (e : Endpoint) : about (t ++ t') e = t.about e ++ t'.about e :=
  List.filterMap_append

end Transcript

/-! ## Connections and what is read from them -/

namespace Link

/-- What a link gives when it is asked at an instant. -/
def delivers (now : Nat) (link : Link) : List Received :=
  match (link.receive now).2 with
  | .ready r => [r.mapError .transport]
  | .waiting _ => []

/-- What becomes of a link that is written to and read from, and what was read. -/
inductive Reads (opened : Link) : List Received → Link → Prop
  | start : Reads opened [] opened
  | sends {read : List Received} {link : Link} (h : Reads opened read link) (m : Message) :
      Reads opened read (link.send m).1
  | receives {read : List Received} {link : Link} (h : Reads opened read link) (now : Nat) :
      Reads opened (read ++ link.delivers now) (link.receive now).1

end Link

/-- A link that goes back to a connection with an endpoint, and what was read from it since. -/
def World.Reached (world : World) (e : Endpoint) (read : List Received) (link : Link) : Prop :=
  ∃ events writeFault, (world.remote e).answer = .accept events writeFault ∧
    (world.link events writeFault).Reads read link

namespace Exchange

variable {x : Exchange} {now : Nat}

/-- While there is something to write, nothing is read. -/
theorem takes_writing {m : Message} {rest : List Message} (hout : x.handshake.outbox = m :: rest) :
    x.takes now = [] := by
  simp [takes, hout]

theorem takes_complete (hstage : x.handshake.stage = .complete) : x.takes now = [] := by
  simp [takes, hstage]

theorem takes_reading (hout : x.handshake.outbox = []) (hstage : x.handshake.stage ≠ .complete) :
    x.takes now = x.link.delivers now := by
  simp only [takes, hout, List.isEmpty_nil, Bool.true_and, bne_iff_ne.mpr hstage, if_true]
  rfl

end Exchange

namespace Handshake

variable {config : ConnectionConfig} {peer : Peer} {nonce : UInt64} {read : List Received} {h : Handshake}
  {link : Link} {now : Nat}

/-- A step that does not end a handshake with a fault leaves it where what was received puts it. -/
theorem Standing.step (hs : Standing config peer nonce read h) (now : Nat) (link : Link)
    (unfailed : ∀ fault, (h.step now link).outcome ≠ .finished (.error fault)) :
    Standing config peer nonce (read ++ ({ handshake := h, link } : Exchange).takes now)
      (h.step now link).handshake := by
  cases hout : h.outbox with
  | cons m rest =>
      rw [Exchange.takes_writing hout, List.append_nil]
      simp only [Handshake.step, hout]
      split
      · exact ⟨hs.settings, hs.ours, hs.quiet, hs.accepts, hs.stage, hs.peer⟩
      · exact hs
      · exact hs
  | nil =>
      by_cases hstage : h.stage = .complete
      · rw [Exchange.takes_complete hstage, List.append_nil]
        simp only [Handshake.step, hout, if_pos hstage]
        exact hs
      · rw [Exchange.takes_reading hout hstage, Link.delivers]
        simp only [Handshake.step, hout, if_neg hstage] at unfailed ⊢
        cases hreceive : link.receive now with
        | mk link' poll =>
            cases poll with
            | waiting wake =>
                rw [List.append_nil]
                exact hs
            | ready r =>
                simp only [hreceive] at unfailed ⊢
                have hreacts := hs.reacts hout (r.mapError .transport)
                cases hreacts with
                | fails fault hfault =>
                    refine absurd ?_ (unfailed fault)
                    simp only [Reaction.proceed, hfault]
                | stands hfault hstanding => exact hstanding

/-- A complete handshake has received a version, and knows the peer from the first. -/
theorem Standing.introduces (hs : Standing config peer nonce read h) (hstage : h.stage = .complete) :
    ∃ v, read.findSome? version? = some v ∧ h.peer = introduced peer v := by
  have hcomplete := hs.stage
  have hpeer := hs.peer
  rw [hstage] at hcomplete
  cases hv : read.findSome? version? with
  | none =>
      rw [hv] at hcomplete
      cases hverack : read.any isVerack <;> rw [hverack] at hcomplete <;> cases hcomplete
  | some v =>
      rw [hv] at hpeer
      exact ⟨v, rfl, hpeer⟩

/-- A handshake ends without a fault once it is complete. -/
theorem step_completed (hdone : (h.step now link).outcome = .finished (.ok ())) :
    h.stage = .complete ∧ (h.step now link).handshake = h := by
  cases hout : h.outbox with
  | cons m rest =>
      simp only [Handshake.step, hout] at hdone
      split at hdone <;> cases hdone
  | nil =>
      simp only [Handshake.step, hout] at hdone ⊢
      split_ifs at hdone ⊢ with hstage
      · exact ⟨hstage, rfl⟩
      · split at hdone
        · simp only [Reaction.proceed] at hdone
          split at hdone <;> cases hdone
        · cases hdone

/-- What a step of a handshake takes is read from its link. -/
theorem step_reads {opened : Link} (hl : opened.Reads read link) (now : Nat) (h : Handshake) :
    opened.Reads (read ++ ({ handshake := h, link } : Exchange).takes now) (h.step now link).link := by
  cases hout : h.outbox with
  | cons m rest =>
      rw [Exchange.takes_writing hout, List.append_nil]
      have hsends := hl.sends m
      simp only [Handshake.step, hout]
      split <;> rename_i hsend <;> rw [hsend] at hsends <;> exact hsends
  | nil =>
      by_cases hstage : h.stage = .complete
      · rw [Exchange.takes_complete hstage, List.append_nil]
        simp only [Handshake.step, hout, if_pos hstage]
        exact hl
      · rw [Exchange.takes_reading hout hstage]
        have hreceives := hl.receives now
        simp only [Handshake.step, hout, if_neg hstage]
        split <;> rename_i hreceive <;> rw [hreceive] at hreceives <;> exact hreceives

end Handshake

/-! ## The transcript of a crawl -/

namespace Dial

/-- What happens on the connection in the next step of a dial. -/
def occurrences (now : Nat) : Dial → Proceedings
  | unanswered _ => []
  | shaking handshake link => (({ handshake, link } : Exchange).takes now).map .received

end Dial

namespace Line

/-- What a line gives when it is asked at an instant. -/
def delivers (now : Nat) (line : Line) : List Received :=
  match (line.receive now).2 with
  | .ready r => [r]
  | .waiting _ => []

theorem receive_link (now : Nat) (l : Link) : ((link l).receive now).1 = link (l.receive now).1 := by
  simp only [receive]
  split <;> rename_i hreceive <;> rw [hreceive]

theorem delivers_link (now : Nat) (l : Link) : (link l).delivers now = l.delivers now := by
  simp only [delivers, receive, Link.delivers]
  cases hreceive : l.receive now with
  | mk l' poll => cases poll <;> rfl

end Line

namespace Session

/-- The nonce of the pong that is to be acted on next. -/
def pending (session : Session) : List UInt64 :=
  match session.phase with
  | .handling (.pong nonce) => [nonce]
  | _ => []

/-- What happens on the connection in the next step of a session. -/
def occurrences (s : Shared) (session : Session) : Proceedings :=
  match session.phase with
  | .awaiting _ => if s.cancelled then [] else (session.line.delivers s.now).map .received
  | .handling _ | .signalling => session.pending.map .ponged

end Session

namespace WorkerPhase

/-- The endpoint that a worker has dialed and whose connection, if there is one, it holds. -/
def visited? : WorkerPhase → Option Endpoint
  | dialing e _ _ | reporting e _ _ | noting e _ | pinging e _ _ => some e
  | serving session => some session.endpoint
  | starting | idle | claimed _ | marked _ | leaving | exited => none

/-- What happens on the connection in the next step of a worker. -/
def occurrences (s : Shared) : WorkerPhase → Proceedings
  | dialing _ dial _ => if s.cancelled then [] else dial.occurrences s.now
  | pinging _ link nonce =>
    match (link.send (.ping nonce)).2 with
    | .ready (.ok ()) => [.pinged nonce]
    | _ => []
  | serving session => session.occurrences s
  | _ => []

/-- What happens on the connection, with its endpoint. -/
def entries (s : Shared) (phase : WorkerPhase) : Transcript :=
  match phase.visited? with
  | some e => (phase.occurrences s).map (e, ·)
  | none => []

end WorkerPhase

namespace Crawl

/-- What happens on connections when an event happens to a crawl. -/
def entries (c : Crawl) : Event → Transcript
  | .act (.worker place) =>
    match c.workers[place]? with
    | some worker => worker.phase.entries c.shared
    | none => []
  | _ => []

/-- What happens on connections while some events happen to a crawl. -/
def transcript (world : World) (c : Crawl) : List Event → Transcript
  | [] => []
  | event :: events => c.entries event ++ (c.apply world event).transcript world events

theorem transcript_append (world : World) (c : Crawl) (events more : List Event) :
    c.transcript world (events ++ more)
      = c.transcript world events ++ (c.run world events).transcript world more := by
  induction events generalizing c with
  | nil => rfl
  | cons event rest ih =>
      simp only [List.cons_append, transcript, ih, List.append_assoc]
      rfl

end Crawl

/-! ## Dials -/

namespace Dial

/-- A dial is where what was received on its connection puts it. -/
def Attested (world : World) (e : Endpoint) (p : Proceedings) : Dial → Prop
  | unanswered _ => p = []
  | shaking handshake link => p.Quiet ∧ world.Reached e p.received link ∧
      ∃ nonce, Handshake.Standing world.connection { endpoint := e } nonce p.received handshake

variable {world : World} {e : Endpoint} {p : Proceedings} {dial : Dial} {s : Shared}

/-- Nobody is pinged before the dial is over. -/
theorem Attested.quiet (h : dial.Attested world e p) : p.Quiet := by
  cases dial with
  | unanswered due =>
      obtain rfl : p = [] := h
      exact ⟨rfl, rfl⟩
  | shaking handshake link => exact h.1

/-- What a step of a dial comes to, given what has happened on its connection then. -/
structure Stepped (world : World) (e : Endpoint) (p : Proceedings)
    (made : Dial × Shared × Advance (Except ConnectionFault Connected)) : Prop where
  quiet : p.Quiet
  reached : p = [] ∨ ∃ link, world.Reached e p.received link
  connected : ∀ connected, made.2.2 = .finished (.ok connected) →
    p.Introduces e connected.peer ∧ world.Reached e p.received connected.link
  unfinished : (∀ result, made.2.2 ≠ .finished result) → made.1.Attested world e p

/-- Nothing has happened on the connection of a dial that was just answered. -/
theorem answered_stepped (world : World) (e : Endpoint) (due : Nat) (s : Shared) :
    Stepped world e [] (answered world e due s) := by
  unfold answered
  split
  next => exact ⟨⟨rfl, rfl⟩, .inl rfl, by simp, by simp⟩
  next => exact ⟨⟨rfl, rfl⟩, .inl rfl, by simp, fun _ => rfl⟩
  next events writeFault hanswer =>
    refine ⟨⟨rfl, rfl⟩, .inl rfl, by simp, fun _ => ⟨⟨rfl, rfl⟩, ?_, ?_⟩⟩
    · exact ⟨events, writeFault, hanswer, .start⟩
    · exact ⟨_, rfl, rfl, rfl, by simp [Proceedings.received], rfl, rfl⟩

theorem shaking_stepped {handshake : Handshake} {link : Link}
    (h : (shaking handshake link).Attested world e p) (s : Shared) :
    Stepped world e (p ++ (shaking handshake link).occurrences s.now)
      ((shaking handshake link).step world e s) := by
  obtain ⟨hquiet, ⟨events, writeFault, hanswer, hreads⟩, nonce, hstanding⟩ := h
  have hreceived : (p ++ (shaking handshake link).occurrences s.now).received
      = p.received ++ ({ handshake, link } : Exchange).takes s.now :=
    Proceedings.received_append_received p _
  have hquiet' : Proceedings.Quiet (p ++ (shaking handshake link).occurrences s.now) := hquiet.receive _
  have hreads' := Handshake.step_reads hreads s.now handshake
  have hstanding' := hstanding.step s.now link
  have hcompleted := @Handshake.step_completed handshake link s.now
  rw [← hreceived] at hreads' hstanding'
  have hreached := (⟨events, writeFault, hanswer, hreads'⟩ : world.Reached e _ _)
  simp only [step]
  cases houtcome : (handshake.step s.now link).outcome with
  | finished result =>
      cases result with
      | error fault => exact ⟨hquiet', .inr ⟨_, hreached⟩, by simp, by simp⟩
      | ok _ =>
          refine ⟨hquiet', .inr ⟨_, hreached⟩, ?_, by simp⟩
          rintro connected ⟨⟩
          obtain ⟨hstage, hsame⟩ := hcompleted houtcome
          have hcomplete := (congrArg Handshake.stage hsame).trans hstage
          exact ⟨(hstanding' (by simp [houtcome])).introduces hcomplete, hreached⟩
  | moved =>
      exact ⟨hquiet', .inr ⟨_, hreached⟩, by simp,
        fun _ => ⟨hquiet', hreached, nonce, hstanding' (by simp [houtcome])⟩⟩
  | waiting wake =>
      exact ⟨hquiet', .inr ⟨_, hreached⟩, by simp,
        fun _ => ⟨hquiet', hreached, nonce, hstanding' (by simp [houtcome])⟩⟩

theorem Attested.step (h : dial.Attested world e p) (s : Shared) :
    Stepped world e (p ++ dial.occurrences s.now) (dial.step world e s) := by
  cases dial with
  | shaking handshake link => exact shaking_stepped h s
  | unanswered due =>
      obtain rfl : p = [] := h
      simp only [step]
      split_ifs with hdue
      · exact answered_stepped world e _ s
      · exact ⟨⟨rfl, rfl⟩, .inl rfl, by simp, fun _ => rfl⟩

end Dial

/-! ## Sessions -/

namespace Session

/-- A session reads from its connection, and acts on no pong that did not come from there. -/
structure Attested (world : World) (p : Proceedings) (session : Session) : Prop where
  line : ∃ link, session.line = .link link ∧ world.Reached session.endpoint p.received link
  pongs : (p.pongs ++ session.pending).Sublist (p.received.filterMap Proceedings.pong?)

variable {world : World} {p : Proceedings} {session : Session}

/-- A pong that a session is to act on was just received. -/
theorem judge_pending {e : Endpoint} {r : Received} {s : Shared} {notice : Notice} (line : Line)
    (hjudge : (s.judge e r).2 = .handle notice) :
    pending ⟨e, line, .handling notice⟩ = [r].filterMap Proceedings.pong? := by
  cases r with
  | error fault =>
      simp only [Shared.judge] at hjudge
      split_ifs at hjudge
  | ok m =>
      cases hjudge
      cases m <;> rfl

/-- A session that has acted on all pongs reads on. -/
theorem Attested.reads (h : session.Attested world p) (hpending : session.pending = []) (now : Nat)
    (phase : SessionPhase)
    (hpongs : (pending ⟨session.endpoint, (session.line.receive now).1, phase⟩).Sublist
      ((session.line.delivers now).filterMap Proceedings.pong?)) :
    Attested world (p ++ (session.line.delivers now).map .received)
      ⟨session.endpoint, (session.line.receive now).1, phase⟩ := by
  obtain ⟨link, hline, events, writeFault, hanswer, hreads⟩ := h.line
  have hbefore := h.pongs
  rw [hpending, List.append_nil] at hbefore
  constructor
  · refine ⟨(link.receive now).1, by rw [hline, Line.receive_link], events, writeFault, hanswer, ?_⟩
    rw [Proceedings.received_append_received, hline, Line.delivers_link]
    exact hreads.receives now
  · rw [Proceedings.pongs_append_received, Proceedings.received_append_received, List.filterMap_append]
    exact hbefore.append hpongs

theorem Attested.stepAwaiting (h : session.Attested world p) (idle : Option Millis) (deadline : Option Nat)
    (s : Shared) (hphase : session.phase = .awaiting deadline) :
    (session.stepAwaiting idle deadline s).1.Attested world (p ++ session.occurrences s) := by
  have hpending : session.pending = [] := by rw [pending, hphase]
  have hreads := h.reads hpending s.now
  unfold Session.stepAwaiting
  simp only [occurrences, hphase]
  by_cases hstop : s.cancelled = true
  · rw [if_pos hstop, if_pos hstop, List.append_nil]
    exact h
  · rw [if_neg hstop, if_neg hstop]
    simp only [Line.delivers] at hreads ⊢
    cases hreceive : session.line.receive s.now with
    | mk line poll =>
        rw [hreceive] at hreads
        cases poll with
        | waiting wake =>
            dsimp only
            split_ifs <;> exact hreads (.awaiting deadline) (List.nil_sublist _)
        | ready r =>
            have hjudge := @judge_pending session.endpoint r s
            dsimp only
            cases hverdict : s.judge session.endpoint r with
            | mk s' verdict =>
                rw [hverdict] at hjudge
                cases verdict with
                | goOn => exact hreads (.awaiting _) (List.nil_sublist _)
                | finish reason => exact hreads (.awaiting deadline) (List.nil_sublist _)
                | handle notice => exact hreads (.handling notice) (by rw [hjudge line rfl])

/-- A session acts on what is pending. -/
theorem Attested.acts (h : session.Attested world p) (phase : SessionPhase)
    (hpending : pending ⟨session.endpoint, session.line, phase⟩ = []) :
    Attested world (p ++ session.pending.map .ponged) ⟨session.endpoint, session.line, phase⟩ := by
  constructor
  · rw [Proceedings.received_append_ponged]
    exact h.line
  · rw [hpending, List.append_nil, Proceedings.received_append_ponged, Proceedings.pongs_append_ponged]
    exact h.pongs

theorem Attested.step (h : session.Attested world p) (idle : Option Millis) (s : Shared) :
    (session.step idle s).1.Attested world (p ++ session.occurrences s) := by
  cases hphase : session.phase with
  | awaiting deadline =>
      simp only [Session.step, hphase]
      exact h.stepAwaiting idle deadline s hphase
  | handling notice =>
      simp only [Session.step, hphase, occurrences]
      cases s.handle session.endpoint notice with
      | mk s' due =>
          cases due with
          | true => exact h.acts .signalling rfl
          | false => exact h.acts (.awaiting _) rfl
  | signalling =>
      simp only [Session.step, hphase, occurrences]
      exact h.acts (.awaiting _) rfl

theorem pings_append_occurrences (p : Proceedings) (session : Session) (s : Shared) :
    Proceedings.pings (p ++ session.occurrences s) = p.pings := by
  unfold occurrences
  split
  · split_ifs
    · rw [List.append_nil]
    · exact Proceedings.pings_append_received p _
  · exact Proceedings.pings_append_ponged p _
  · exact Proceedings.pings_append_ponged p _

/-- A session changes what is noted about a node only by the pongs that it acts on. -/
theorem step_details (idle : Option Millis) (session : Session) {s : Shared} (hc : s.registry.Consistent)
    (e : Endpoint) :
    (session.step idle s).2.1.registry.details e
      = if session.endpoint = e then
          session.pending.foldl (fun d nonce => d.answer nonce) (s.registry.details e)
        else s.registry.details e := by
  have hkept : ∀ r : Registry, r.details e = s.registry.details e → session.pending = [] →
      r.details e = if session.endpoint = e then
          session.pending.foldl (fun d nonce => d.answer nonce) (s.registry.details e)
        else s.registry.details e := by
    intro r hr hpending
    rw [hpending, List.foldl_nil, ite_self, hr]
  cases hphase : session.phase with
  | awaiting deadline =>
      simp only [Session.step, hphase]
      refine hkept _ ?_ (by rw [pending, hphase])
      rw [(stepAwaiting_kept idle session deadline s).2]
  | signalling =>
      simp only [Session.step, hphase]
      exact hkept _ rfl (by rw [pending, hphase])
  | handling notice =>
      have hstep : (session.step idle s).2.1 = (s.handle session.endpoint notice).1 := by
        simp only [Session.step, hphase]
        cases s.handle session.endpoint notice with
        | mk s' due => cases due <;> rfl
      rw [hstep]
      cases notice with
      | pong nonce =>
          simp only [pending, hphase, Shared.handle, Shared.handlePong_registry]
          exact hc.details_recordPong session.endpoint nonce e
      | addr es => exact hkept _ (hc.details_kept (.add es) e rfl) (by rw [pending, hphase])
      | addrV2 es => exact hkept _ (hc.details_kept (.add es) e rfl) (by rw [pending, hphase])
      | _ => exact hkept _ rfl (by rw [pending, hphase])

end Session

end BitcoinCrawl
