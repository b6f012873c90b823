import BitcoinCrawl.Peering.Fault
import BitcoinCrawl.Proofs.Transport.Chunks
import Mathlib.Tactic.SplitIfs

set_option autoImplicit false

/-! # What a stream will bring

What is to come from a link settles which results its reads will give, whenever they are made: those of the
frames before the first failure of the stream, and that failure (`Link.outlook`). A read that waits leaves
them as they are (`Link.outlook_of_waiting`), one that is ready gives the first (`Link.outlook_of_ready`). -/

namespace BitcoinCrawl

namespace Token

/-- The bytes before the first failure. -/
def lead : List Token → Bytes
  | byte b :: rest => b :: lead rest
  | _ => []

/-- The first failure. Behind everything else is the end of the stream. -/
def failure (tokens : List Token) : TransportFault := (stops tokens).headD .endOfStream

/-- The results of the frames before the first failure, and that failure. -/
def outlook (magic : Magic) (tokens : List Token) : List Received :=
  (Frame.cut magic (lead tokens)).map (·.mapError .transport) ++ [.error (.transport (failure tokens))]

theorem lead_append (bs : Bytes) (tokens : List Token) : lead (bs.map byte ++ tokens) = bs ++ lead tokens := by
  induction bs with
  | nil => rfl
  | cons b rest ih => exact congrArg (b :: ·) ih

theorem failure_append (bs : Bytes) (tokens : List Token) : failure (bs.map byte ++ tokens) = failure tokens := by
  rw [failure, stops_append, stops_map, List.nil_append, failure]

variable {magic : Magic}

theorem outlook_frame {taken : Bytes} {r : Reader.Result}
    (h : ∀ more, Frame.next? magic (taken ++ more) = some (r, more)) (tokens : List Token) :
    outlook magic (taken.map byte ++ tokens) = r.mapError .transport :: outlook magic tokens := by
  rw [outlook, lead_append, failure_append, Frame.cut_of_some (h _)]
  rfl

theorem outlook_stop {held : Bytes} (h : Frame.next? magic held = none) (fault : TransportFault)
    (tokens : List Token) :
    outlook magic (held.map byte ++ stop fault :: tokens) = [.error (.transport fault)] := by
  have hlead : lead (stop fault :: tokens) = [] := rfl
  rw [outlook, lead_append, failure_append, hlead, List.append_nil, Frame.cut_of_none h]
  rfl

theorem outlook_end {held : Bytes} (h : Frame.next? magic held = none) :
    outlook magic (held.map byte) = [.error (.transport .endOfStream)] := by
  have hlead := lead_append held []
  have hfailure := failure_append held []
  rw [List.append_nil] at hlead hfailure
  rw [outlook, hlead, hfailure, show lead [] = [] from rfl, List.append_nil, Frame.cut_of_none h]
  rfl

end Token

namespace Link

/-- The results that reads of a link will give up to the first failure of the stream. -/
def outlook (link : Link) : List Received := Token.outlook link.magic link.unread

variable {link link' : Link} {now : Nat}

theorem receive_part (hw : link.reader.Waits) (now : Nat) : (link.receive now).1.reader.Waits := by
  have htakes := receive_takes hw now
  generalize (link.receive now).1.reader = reader at htakes
  generalize (link.receive now).1.script = script at htakes
  generalize (link.receive now).2 = poll at htakes
  cases htakes with
  | waits _ _ _ part | stops _ _ _ part | ends _ part => exact part
  | frame => exact Reader.waits_start

/-- A read that waits leaves to come what was to come. -/
theorem unread_of_waiting {wake : Option Nat} (hw : link.reader.Waits)
    (h : link.receive now = (link', .waiting wake)) : link'.unread = link.unread := by
  have htakes := receive_takes hw now
  have hheard : link'.heard = link.heard := by
    rw [show link' = (link.receive now).1 by rw [h]]
    rfl
  rw [h] at htakes
  dsimp only at htakes
  generalize hreader : link'.reader = reader at htakes
  generalize hscript : link'.script = script at htakes
  cases htakes with
  | waits _ _ _ part split => rw [unread, hheard, hreader, hscript, split]

theorem outlook_of_waiting {wake : Option Nat} (hw : link.reader.Waits)
    (h : link.receive now = (link', .waiting wake)) : link'.outlook = link.outlook := by
  have hmagic : link'.magic = link.magic := by
    rw [show link' = (link.receive now).1 by rw [h]]
    rfl
  rw [outlook, outlook, unread_of_waiting hw h, hmagic]

theorem outlook_of_ready {r : Reader.Result} (hw : link.reader.Waits)
    (h : link.receive now = (link', .ready r)) :
    link.outlook = r.mapError .transport :: if Reader.isStop r then [] else link'.outlook := by
  have htakes := receive_takes hw now
  have hsame : link'.magic = link.magic ∧ link'.heard = link.heard := by
    rw [show link' = (link.receive now).1 by rw [h]]
    exact ⟨rfl, rfl⟩
  rw [h] at htakes
  dsimp only at htakes
  generalize hreader : link'.reader = reader at htakes
  generalize hscript : link'.script = script at htakes
  cases htakes with
  | stops _ _ fault part stop split =>
      rw [if_pos stop, outlook, split, Token.outlook_stop (part.next?_held link.magic)]
      rfl
  | ends _ part split =>
      rw [outlook, split, Token.outlook_end (part.next?_held link.magic)]
      rfl
  | frame taken _ _ next split =>
      have hnot : ¬ Reader.isStop r = true := by
        rw [Frame.isStop_of_next? (next [])]
        exact Bool.false_ne_true
      rw [if_neg hnot, outlook, split, Token.outlook_frame next, outlook, unread, hsame.1, hsame.2, hreader,
        hscript]
      rfl

end Link

/-! ## Peers that keep nobody waiting -/

/-- Whether an event brings the same whatever the peer has heard, and does not hold up the stream for
    ever. -/
def StreamEvent.isSteady : StreamEvent → Bool
  | .hold => false
  | .frame f => f.echo.isNone
  | _ => true

namespace Script

theorem tokens_steady {events : List StreamEvent} (h : ∀ event ∈ events, event.isSteady = true)
    (heard heard' : Heard) : tokens heard events = tokens heard' events := by
  induction events with
  | nil => rw [tokens_nil, tokens_nil]
  | cons event rest ih =>
      rw [tokens_cons, tokens_cons, ih fun e he => h e (List.mem_cons_of_mem _ he)]
      cases event with
      | frame f =>
          have hecho : f.echo = none := Option.isNone_iff_eq_none.mp (h _ List.mem_cons_self)
          have hpayload : ∀ heard, f.payloadFor heard = f.payload := by
            intro heard
            rw [FrameScript.payloadFor, hecho]
          simp only [StreamEvent.tokens, FrameScript.bytes, hpayload]
      | _ => rfl

/-- What a read leaves behind was there before, up to a rest of one chunk. -/
theorem mem_events_read (magic : Magic) (heard : Heard) (now : Nat) (reader : Reader) (pauseEnd : Option Nat)
    {events : List StreamEvent} {event : StreamEvent}
    (h : event ∈ (read magic heard now reader pauseEnd events).script.events) :
    event ∈ events ∨ ∃ left, event = .bytes left := by
  induction events generalizing reader pauseEnd with
  | nil => cases h
  | cons first rest ih =>
      have hleft : ∀ left, event ∈ StreamEvent.bytes left :: rest →
          event ∈ first :: rest ∨ ∃ left, event = .bytes left := fun left hmem =>
        (List.mem_cons.mp hmem).elim (fun he => .inr ⟨left, he⟩) fun hrest => .inl (List.mem_cons_of_mem _ hrest)
      cases first with
      | bytes chunk =>
          simp only [read] at h
          cases habsorb : reader.absorb magic chunk with
          | all reader' =>
              rw [habsorb] at h
              exact (ih reader' none h).imp_left (List.mem_cons_of_mem _)
          | result r left =>
              rw [habsorb] at h
              exact hleft left h
      | frame f =>
          simp only [read] at h
          cases habsorb : reader.absorb magic (f.bytes heard) with
          | all reader' =>
              rw [habsorb] at h
              exact (ih reader' none h).imp_left (List.mem_cons_of_mem _)
          | result r left =>
              rw [habsorb] at h
              exact hleft left h
      | delay span =>
          simp only [read] at h
          split_ifs at h
          · exact (ih reader none h).imp_left (List.mem_cons_of_mem _)
          · exact .inl h
      | eof | fault kind | notReady => exact .inl (List.mem_cons_of_mem _ h)
      | hold => exact .inl h

/-- If a read of a steady script waits, it is known how long. -/
theorem read_steady (magic : Magic) (heard : Heard) (now : Nat) (reader : Reader) (pauseEnd : Option Nat)
    {events : List StreamEvent} (h : ∀ event ∈ events, event.isSteady = true) :
    (read magic heard now reader pauseEnd events).outcome ≠ .waiting none := by
  induction events generalizing reader pauseEnd with
  | nil => simp [read]
  | cons event rest ih =>
      have hrest : ∀ e ∈ rest, e.isSteady = true := fun e he => h e (List.mem_cons_of_mem _ he)
      cases event with
      | bytes chunk =>
          simp only [read]
          cases reader.absorb magic chunk with
          | all reader' => exact ih reader' none hrest
          | result r left => simp
      | frame f =>
          simp only [read]
          cases reader.absorb magic (f.bytes heard) with
          | all reader' => exact ih reader' none hrest
          | result r left => simp
      | delay span =>
          simp only [read]
          split_ifs
          · exact ih reader none hrest
          · simp
      | eof | fault kind | notReady => simp [read]
      | hold => cases h .hold List.mem_cons_self

end Script

/-- A link that takes everything written to it and whose stream is steady. -/
structure Link.Fair (link : Link) : Prop where
  part : link.reader.Waits
  writes : link.writeFault = none
  steady : ∀ event ∈ link.script.events, event.isSteady = true

namespace Link

variable {link : Link}

theorem send_written (hw : link.writeFault = none) (m : Message) :
    link.send m = ({ link with
      sent := link.sent.push (Frame.encode link.magic m), heard := link.heard.hear m }, .ready (.ok ())) := by
  simp only [Link.send, hw]
  rfl

theorem Fair.receive (hf : link.Fair) (now : Nat) :
    (link.receive now).1.Fair ∧ (link.receive now).2 ≠ .waiting none := by
  refine ⟨⟨receive_part hf.part now, hf.writes, fun event hmem => ?_⟩, Script.read_steady _ _ _ _ _ hf.steady⟩
  rcases Script.mem_events_read _ _ _ _ _ hmem with hmem | ⟨left, rfl⟩
  · exact hf.steady event hmem
  · rfl

/-- What a peer hears changes nothing about what it will say. -/
theorem Fair.outlook_heard (hf : link.Fair) (heard : Heard) : { link with heard }.outlook = link.outlook := by
  simp only [outlook, unread, Script.tokens_steady hf.steady heard link.heard]

theorem Fair.send (hf : link.Fair) (m : Message) :
    ∃ link', link.send m = (link', .ready (.ok ())) ∧ link'.Fair ∧ link'.outlook = link.outlook :=
  ⟨_, send_written hf.writes m, ⟨hf.part, hf.writes, hf.steady⟩, hf.outlook_heard (link.heard.hear m)⟩

end Link

/-! ## Peers that say everything at once -/

/-- Whether an event brings something at once, and the same whatever the peer has heard. -/
def StreamEvent.isPrompt : StreamEvent → Bool
  | .delay _ | .notReady | .hold => false
  | .frame f => f.echo.isNone
  | _ => true

theorem StreamEvent.isSteady_of_isPrompt {event : StreamEvent} (h : event.isPrompt = true) :
    event.isSteady = true := by
  cases event with
  | frame f => exact h
  | hold => cases h
  | _ => rfl

/-- A read of a prompt script has a result. -/
theorem Script.read_prompt (magic : Magic) (heard : Heard) (now : Nat) (reader : Reader) (pauseEnd : Option Nat)
    {events : List StreamEvent} (h : ∀ event ∈ events, event.isPrompt = true) :
    ∃ r, (read magic heard now reader pauseEnd events).outcome = .ready r := by
  induction events generalizing reader pauseEnd with
  | nil => exact ⟨_, rfl⟩
  | cons event rest ih =>
      have hrest : ∀ e ∈ rest, e.isPrompt = true := fun e he => h e (List.mem_cons_of_mem _ he)
      cases event with
      | bytes chunk =>
          simp only [read]
          cases reader.absorb magic chunk with
          | all reader' => exact ih reader' none hrest
          | result r left => exact ⟨r, rfl⟩
      | frame f =>
          simp only [read]
          cases reader.absorb magic (f.bytes heard) with
          | all reader' => exact ih reader' none hrest
          | result r left => exact ⟨r, rfl⟩
      | eof | fault kind => exact ⟨_, rfl⟩
      | delay | notReady | hold => cases h _ List.mem_cons_self

/-- A link that takes everything written to it and on which every read has a result. -/
structure Link.Prompt (link : Link) : Prop where
  part : link.reader.Waits
  writes : link.writeFault = none
  prompt : ∀ event ∈ link.script.events, event.isPrompt = true

namespace Link

variable {link : Link}

/-- What there is to do at most about what a link will bring. A result is read; then it is acted upon, and
    others are told about it, or it is answered with two messages. -/
def toil (link : Link) : Nat := 7 * link.outlook.length

theorem Prompt.fair (hp : link.Prompt) : link.Fair :=
  ⟨hp.part, hp.writes, fun event hmem => StreamEvent.isSteady_of_isPrompt (hp.prompt event hmem)⟩

theorem Prompt.receive (hp : link.Prompt) (now : Nat) :
    ∃ link' r, link.receive now = (link', .ready r) ∧ link'.Prompt := by
  obtain ⟨r, hready⟩ := Script.read_prompt link.magic link.heard now link.reader link.script.until? hp.prompt
  refine ⟨(link.receive now).1, r, Prod.ext rfl hready, receive_part hp.part now, hp.writes, fun event hmem => ?_⟩
  rcases Script.mem_events_read _ _ _ _ _ hmem with hmem | ⟨left, rfl⟩
  · exact hp.prompt event hmem
  · rfl

theorem Prompt.send (hp : link.Prompt) (m : Message) :
    ∃ link', link.send m = (link', .ready (.ok ())) ∧ link'.Prompt ∧ link'.outlook = link.outlook :=
  ⟨_, send_written hp.writes m, ⟨hp.part, hp.writes, hp.prompt⟩, hp.fair.outlook_heard (link.heard.hear m)⟩

end Link

/-! ## What a session gets -/

/-- The messages among some results, up to a fault that cannot be passed over. -/
def delivered : List Received → List Message
  | [] => []
  | .ok m :: rest => m :: delivered rest
  | .error fault :: rest => if fault.isRecoverable then delivered rest else []

end BitcoinCrawl
