import BitcoinCrawl.Proofs.Peering.Exchange

set_option autoImplicit false

/-! # What a handshake writes

Whatever a link does with its writes, a handshake writes what is in its outbox, in order, and what comes behind that
are answers (`Exchange.written_inOrder`). No answer is a version message. -/

namespace BitcoinCrawl

/-- Messages that do not introduce anybody. -/
def Answers (messages : List Message) : Prop := ∀ v, .version v ∉ messages

theorem Answers.nil : Answers [] := fun _ => List.not_mem_nil

theorem Answers.append {first second : List Message} (h : Answers first) (h' : Answers second) :
    Answers (first ++ second) := by
  intro v hmem
  rcases List.mem_append.mp hmem with hfirst | hsecond
  · exact h v hfirst
  · exact h' v hsecond

theorem Handshake.answers_replies (config : ConnectionConfig) (version : UInt32) :
    Answers (replies config version) := by
  intro v hmem
  simp only [replies] at hmem
  split_ifs at hmem <;> simp at hmem

/-- Whatever is received, only answers are added to what is to be written. -/
theorem Handshake.outbox_receive (h : Handshake) (r : Received) :
    ∃ answers, Answers answers ∧ (h.receive r).handshake.outbox = h.outbox ++ answers := by
  have hnone : ∃ answers, Answers answers ∧ h.outbox = h.outbox ++ answers :=
    ⟨[], .nil, (List.append_nil _).symm⟩
  cases r with
  | error fault =>
      simp only [receive]
      split_ifs <;> exact hnone
  | ok m =>
      cases m with
      | version v =>
          simp only [receive, onMessage]
          split_ifs
          · exact hnone
          · simp only [onVersion]
            split_ifs
            · exact hnone
            · exact hnone
            · exact ⟨_, answers_replies h.config v.version, rfl⟩
      | _ => exact hnone

/-- Whether a whole frame was written. -/
def WriteOutcome.isWritten : WriteOutcome → Bool
  | written | unflushed _ => true
  | refused _ | stalled => false

namespace Exchange

variable {x : Exchange}

/-- What a step of the handshake writes: the next message of its outbox, unless the write is refused or never ends. A
    message whose flush fails is written nevertheless. -/
def writes (x : Exchange) : List Message :=
  if x.result.isSome then []
  else if (WriteFault.outcome x.link.sent.size x.link.writeFault).isWritten then x.handshake.outbox.take 1
  else []

/-- What a handshake writes by steps at some instants, one after the other. -/
def written (x : Exchange) : List Nat → List Message
  | [] => []
  | now :: later => x.writes ++ (x.step now).written later

/-- What a step does to the link and to what is to be written. -/
structure Hands (x x' : Exchange) : Prop where
  sent : x'.link.sent.toList = x.link.sent.toList ++ x.writes.map (Frame.encode x.link.magic)
  magic : x'.link.magic = x.link.magic
  /-- All that was to be written is written or left, and only answers come behind it. -/
  outbox : ∃ answers left, Answers answers ∧ x.writes ++ left = x.handshake.outbox ++ answers ∧
    (x'.result = none → x'.handshake.outbox = left)

theorem Hands.of_unwritten {x' : Exchange} {answers : List Message} (unwritten : x.writes = [])
    (sent : x'.link.sent = x.link.sent) (magic : x'.link.magic = x.link.magic) (answering : Answers answers)
    (outbox : x'.handshake.outbox = x.handshake.outbox ++ answers) : x.Hands x' where
  sent := by rw [unwritten, sent, List.map_nil, List.append_nil]
  magic := magic
  outbox := ⟨answers, _, answering, by rw [unwritten, List.nil_append, outbox], fun _ => rfl⟩

theorem Hands.of_idle {x' : Exchange} (unwritten : x.writes = []) (sent : x'.link.sent = x.link.sent)
    (magic : x'.link.magic = x.link.magic) (outbox : x'.handshake.outbox = x.handshake.outbox) : x.Hands x' :=
  .of_unwritten unwritten sent magic .nil (by rw [outbox, List.append_nil])

theorem Hands.of_written {x' : Exchange} {m : Message} {rest : List Message} (written : x.writes = [m])
    (next : x.handshake.outbox = m :: rest) (sent : x'.link.sent = x.link.sent.push (Frame.encode x.link.magic m))
    (magic : x'.link.magic = x.link.magic) (left : x'.result = none → x'.handshake.outbox = rest) :
    x.Hands x' where
  sent := by
    rw [written, sent, Array.toList_push]
    rfl
  magic := magic
  outbox := ⟨[], rest, .nil, by rw [written, next, List.append_nil, List.singleton_append], left⟩

theorem writes_of_ended (h : x.result.isSome) : x.writes = [] := if_pos h

theorem writes_of_written (h : x.handshake.outbox = []) : x.writes = [] := by
  rw [writes, h, List.take_nil, ite_self, ite_self]

theorem hands_write (hopen : x.result = none) {m : Message} {rest : List Message}
    (hout : x.handshake.outbox = m :: rest) (now : Nat) : x.Hands (x.step now) := by
  have hwrites : x.writes
      = if (WriteFault.outcome x.link.sent.size x.link.writeFault).isWritten then [m] else [] := by
    rw [writes, hopen, hout]
    rfl
  simp only [Exchange.step, hopen, Option.isSome_none, Bool.false_eq_true, if_false, Handshake.step, hout, Link.send]
  cases hwrite : WriteFault.outcome x.link.sent.size x.link.writeFault with
  | written =>
      rw [hwrite] at hwrites
      refine .of_written hwrites hout rfl rfl fun _ => ?_
      simp only [Handshake.Reaction.proceed, Handshake.wrote, hout, List.tail_cons]
  | refused kind =>
      rw [hwrite] at hwrites
      exact .of_idle hwrites rfl rfl rfl
  | unflushed kind =>
      rw [hwrite] at hwrites
      refine .of_written hwrites hout rfl rfl fun hopen => ?_
      cases hopen
  | stalled =>
      rw [hwrite] at hwrites
      exact .of_idle hwrites rfl rfl rfl

theorem hands_receive (hopen : x.result = none) (hout : x.handshake.outbox = []) (now : Nat) :
    x.Hands (x.step now) := by
  have hwrites := writes_of_written hout
  simp only [Exchange.step, hopen, Option.isSome_none, Bool.false_eq_true, if_false, Handshake.step, hout]
  by_cases hstage : x.handshake.stage = .complete
  · simp only [if_pos hstage]
    exact .of_idle hwrites rfl rfl rfl
  · simp only [if_neg hstage]
    cases hreceive : x.link.receive now with
    | mk link poll =>
        obtain rfl : (x.link.receive now).1 = link := by rw [hreceive]
        cases poll with
        | ready r =>
            obtain ⟨answers, hanswers, hbox⟩ := x.handshake.outbox_receive (r.mapError .transport)
            exact .of_unwritten hwrites rfl rfl hanswers hbox
        | waiting wake =>
            exact .of_idle hwrites rfl rfl rfl

/-- A step writes from the front of the outbox, whatever the link makes of it. -/
theorem hands_step (x : Exchange) (now : Nat) : x.Hands (x.step now) := by
  cases hresult : x.result with
  | some result =>
      have hended : x.result.isSome := Option.isSome_of_eq_some hresult
      rw [step_of_ended hended]
      exact .of_idle (writes_of_ended hended) rfl rfl rfl
  | none =>
      cases hout : x.handshake.outbox with
      | cons m rest => exact hands_write hresult hout now
      | nil => exact hands_receive hresult hout now

theorem written_of_ended (h : x.result.isSome) (instants : List Nat) : x.written instants = [] := by
  induction instants with
  | nil => rfl
  | cons now later ih =>
      rw [written, writes_of_ended h, step_of_ended h, ih, List.nil_append]

/-- What is on the link behind a run are the frames of what the run has written. -/
theorem sent_run (x : Exchange) (instants : List Nat) :
    (x.run instants).link.sent.toList
      = x.link.sent.toList ++ (x.written instants).map (Frame.encode x.link.magic) := by
  induction instants generalizing x with
  | nil => exact (List.append_nil _).symm
  | cons now later ih =>
      have hstep := x.hands_step now
      calc ((x.step now).run later).link.sent.toList
          = (x.step now).link.sent.toList ++ ((x.step now).written later).map (Frame.encode (x.step now).link.magic) :=
            ih (x.step now)
        _ = x.link.sent.toList ++ (x.writes ++ (x.step now).written later).map (Frame.encode x.link.magic) := by
            rw [hstep.sent, hstep.magic, List.map_append, List.append_assoc]

/-- A run writes what was in the outbox, and then answers, up to some point. -/
theorem written_inOrder (x : Exchange) (instants : List Nat) :
    ∃ answers, Answers answers ∧ x.written instants <+: x.handshake.outbox ++ answers := by
  induction instants generalizing x with
  | nil => exact ⟨[], .nil, List.nil_prefix⟩
  | cons now later ih =>
      obtain ⟨answers, left, hanswers, hqueue, hleft⟩ := (x.hands_step now).outbox
      rw [written]
      -- An end may leave something unwritten; until then the outbox is what the step has left.
      cases hresult : (x.step now).result with
      | some result =>
          rw [written_of_ended (Option.isSome_of_eq_some hresult), List.append_nil]
          exact ⟨answers, hanswers, left, hqueue⟩
      | none =>
          obtain ⟨more, hmore, hstart⟩ := ih (x.step now)
          rw [hleft hresult] at hstart
          refine ⟨answers ++ more, hanswers.append hmore, ?_⟩
          rw [← List.append_assoc, ← hqueue, List.append_assoc]
          exact (List.prefix_append_right_inj x.writes).mpr hstart

end Exchange

end BitcoinCrawl
