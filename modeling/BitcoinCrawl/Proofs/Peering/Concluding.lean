import BitcoinCrawl.Proofs.Peering.Foretold
import BitcoinCrawl.Proofs.Wire.Frames

set_option autoImplicit false

/-! # Handshakes come to their end

A step of a handshake that neither waits nor ends writes a message or takes a result. What is left of both bounds
how many such steps there can be (`Handshake.step_effort`), so a handshake that has often enough something to do is
over, as its conversation with what the link was to bring (`Exchange.Follows.concludes`). With that
`Handshake.AcceptsExactly` says how a handshake with one peer can go. -/

namespace BitcoinCrawl

/-! ## What is left to read -/

theorem FrameScript.length_payloadFor (frame : FrameScript) (heard heard' : Heard) :
    (frame.payloadFor heard).length = (frame.payloadFor heard').length := by
  unfold payloadFor
  split
  · rfl
  · simp only [List.length_append, Bytes.length_ofNatLE]

/-- What a peer has heard changes what it sends, but not how much. -/
theorem StreamEvent.length_tokens (event : StreamEvent) (heard heard' : Heard) :
    (event.tokens heard).length = (event.tokens heard').length := by
  cases event with
  | frame f =>
      simp only [tokens, FrameScript.bytes, Frame.build, List.length_map, List.length_append, Bytes.length_ofNatLE,
        Frame.length_checksum, f.length_payloadFor heard heard']
  | _ => simp only [tokens]

theorem Script.length_tokens (events : List StreamEvent) (heard heard' : Heard) :
    (tokens heard events).length = (tokens heard' events).length := by
  induction events with
  | nil => rw [tokens_nil, tokens_nil]
  | cons event rest ih =>
      rw [tokens_cons, tokens_cons, List.length_append, List.length_append, ih, event.length_tokens heard heard']

namespace Link

variable {link link' : Link} {now : Nat}

/-- A result other than a failure of the stream is made of something. -/
theorem length_unread_of_ready {r : Reader.Result} (hw : link.reader.Waits)
    (h : link.receive now = (link', .ready r)) (hnot : ¬ Reader.isStop r = true) :
    link'.unread.length < link.unread.length := by
  have htakes := receive_takes hw now
  have hheard : link'.heard = link.heard := by
    rw [show link' = (link.receive now).1 by rw [h]]
    rfl
  rw [h] at htakes
  dsimp only at htakes
  rw [unread, hheard]
  generalize link'.reader = reader at htakes
  generalize link'.script = script at htakes
  cases htakes with
  | stops _ _ fault part stop => exact absurd stop hnot
  | ends => exact absurd rfl hnot
  | frame taken _ _ next split =>
      have hsome := Frame.length_of_next? (next [])
      rw [List.append_nil] at hsome
      rw [split, List.length_append, List.length_map, List.length_append, List.length_map]
      exact Nat.add_lt_add_right hsome _

theorem length_unread_heard (link : Link) (sent : Array Bytes) (heard : Heard) :
    { link with sent, heard }.unread.length = link.unread.length := by
  rw [unread, unread, List.length_append, List.length_append, Script.length_tokens _ heard link.heard]

end Link

/-! ## What is left to do -/

namespace Handshake

variable {h : Handshake} {link : Link}

/-- How often a handshake can write or read at most before it waits or ends. A result is read and then answered
    with two messages at most. -/
def effort (h : Handshake) (link : Link) : Nat := 3 * link.unread.length + h.outbox.length

/-- Whatever becomes of the writes, a step that goes on leaves less to do, and one that waits no more. -/
theorem step_effort (hw : link.reader.Waits) (now : Nat) :
    ((h.step now link).outcome = .moved →
      (h.step now link).handshake.effort (h.step now link).link < h.effort link) ∧
    ∀ wake, (h.step now link).outcome = .waiting wake →
      (h.step now link).handshake.effort (h.step now link).link ≤ h.effort link := by
  unfold step
  cases hout : h.outbox with
  | cons m rest =>
      simp only [Link.send]
      cases hwrite : WriteFault.outcome link.sent.size link.writeFault with
      | written =>
          refine ⟨fun _ => ?_, fun wake hwaits => (by cases hwaits)⟩
          simp only [effort, Reaction.proceed, wrote, hout, List.tail_cons, Link.length_unread_heard,
            List.length_cons]
          exact Nat.lt_succ_self _
      | refused kind => exact ⟨fun hmoved => (by cases hmoved), fun wake hwaits => (by cases hwaits)⟩
      | unflushed kind => exact ⟨fun hmoved => (by cases hmoved), fun wake hwaits => (by cases hwaits)⟩
      | stalled => exact ⟨fun hmoved => (by cases hmoved), fun _ _ => Nat.le_refl _⟩
  | nil =>
      by_cases hstage : h.stage = .complete
      · simp only [if_pos hstage]
        exact ⟨fun hmoved => (by cases hmoved), fun wake hwaits => (by cases hwaits)⟩
      · simp only [if_neg hstage]
        rcases hreceive : link.receive now with ⟨link', r | wake⟩
        · dsimp only [Reaction.proceed]
          cases hfault : (h.receive (r.mapError .transport)).fault with
          | some fault => exact ⟨fun hmoved => (by cases hmoved), fun wake hwaits => (by cases hwaits)⟩
          | none =>
              have hnot : ¬ Reader.isStop r = true := fun hstop => h.receive_stop hstop hfault
              have hless := Link.length_unread_of_ready hw hreceive hnot
              have hbox := h.length_outbox_receive (r.mapError .transport)
              refine ⟨fun _ => ?_, fun wake hwaits => (by cases hwaits)⟩
              simp only [effort]
              omega
        · refine ⟨fun hmoved => (by cases hmoved), fun _ _ => ?_⟩
          rw [effort, effort, Link.unread_of_waiting hw hreceive]

/-- What a link will bring once the peer has heard what is in the outbox. -/
def brings (h : Handshake) (link : Link) : List Received :=
  { link with heard := h.outbox.foldl Heard.hear link.heard }.outlook

end Handshake

/-! ## The end -/

namespace Exchange

variable {h : Handshake} {magic : Magic} {x : Exchange} {brought : List Received}

/-- Whether a handshake has something to do: a message to write, an end to come to, or a result to take. -/
def isReady (x : Exchange) (now : Nat) : Bool :=
  !x.handshake.outbox.isEmpty || x.handshake.stage == .complete ||
    match (x.link.receive now).2 with
    | .ready _ => true
    | .waiting _ => false

/-- How often a handshake has something to do at some instants, one after the other. -/
def chances (x : Exchange) : List Nat → Nat
  | [] => 0
  | now :: later => (if x.isReady now then 1 else 0) + (x.step now).chances later

/-- What a link brings is what was received and, until the end, what is still to come. -/
structure Draws (brought : List Received) (x : Exchange) : Prop where
  part : x.link.reader.Waits
  received : ∃ rest, brought = x.received ++ rest ∧ (x.result = none → rest = x.handshake.brings x.link)

theorem Draws.step (hd : x.Draws brought) (hw : x.link.writeFault = none) (now : Nat) :
    (x.step now).Draws brought := by
  obtain ⟨rest, hrest, hcoming⟩ := hd.received
  have hpart := Link.receive_part hd.part now
  have hstepped := step_stepped hw now
  generalize x.step now = x' at hstepped
  cases hstepped with
  | ended => exact hd
  | writes m later hopen hnext =>
      rw [Link.send_written hw]
      refine ⟨hd.part, rest, hrest, fun _ => ?_⟩
      rw [hcoming hopen, Handshake.brings, hnext]
      rfl
  | done hopen => exact ⟨hd.part, rest, hrest, fun hover => by cases hover⟩
  | receives link r hopen hout hstage hready =>
      rw [hready] at hpart
      have houtlook := Link.outlook_of_ready hd.part hready
      have hbrings : x.handshake.brings x.link = x.link.outlook := by
        rw [Handshake.brings, hout]
        rfl
      refine ⟨hpart, if Reader.isStop r then [] else link.outlook, ?_, fun hgoes => ?_⟩
      · rw [hrest, hcoming hopen, hbrings, houtlook, List.append_assoc]
        rfl
      · have hfault : (x.handshake.receive (r.mapError .transport)).fault = none := Option.map_eq_none_iff.mp hgoes
        have hnot : ¬ Reader.isStop r = true := fun hstop => x.handshake.receive_stop hstop hfault
        have hhear := x.handshake.hear_receive (r.mapError .transport) link.heard
        rw [hout] at hhear
        rw [if_neg hnot, Handshake.brings, hhear]
        rfl
  | waits link wake hopen hout hstage hunready =>
      rw [hunready] at hpart
      refine ⟨hpart, rest, hrest, fun _ => ?_⟩
      have houtlook := Link.outlook_of_waiting hd.part hunready
      rw [hcoming hopen, Handshake.brings, Handshake.brings, hout]
      exact houtlook.symm

/-- A handshake is over on a link that was to bring some results, and all is as after its conversation with them. -/
structure Concludes (h : Handshake) (brought : List Received) (x : Exchange) : Prop where
  ended : ∃ result, x.result = some result
  verdict : (h.converse brought).result = x.result
  handshake : (h.converse brought).handshake = x.handshake
  sent : x.link.sent.toList = (h.converse brought).sent.map (Frame.encode x.link.magic)
  /-- It has received what the conversation reads, and nothing else. -/
  received : brought = x.received ++ (h.converse brought).unread

theorem Follows.concludes (hf : x.Follows h magic) (hd : x.Draws brought)
    {result : Except ConnectionFault Unit} (hended : x.result = some result) : x.Concludes h brought := by
  obtain ⟨written, hsent, hconverse⟩ := hf.converse
  obtain ⟨rest, hrest, -⟩ := hd.received
  have hend : h.converse brought = ⟨x.handshake, written, rest, some result⟩ := by
    rw [hrest, hconverse, hended]
  refine ⟨⟨result, hended⟩, ?_, ?_, ?_, ?_⟩
  · rw [hend, hended]
  · rw [hend]
  · rw [hend, hsent]
  · rw [hend, hrest]

/-- A handshake that has something to do is not kept waiting. -/
theorem step_of_ready (hw : x.link.writeFault = none) {now : Nat} (hready : x.isReady now = true)
    (wake : Option Nat) : (x.handshake.step now x.link).outcome ≠ .waiting wake := by
  have hsteps := x.handshake.step_steps hw now
  intro hwaits
  generalize x.handshake.step now x.link = p at hsteps hwaits
  cases hsteps with
  | writes | done => cases hwaits
  | receives link r hout hstage hreceive =>
      unfold Handshake.Reaction.proceed at hwaits
      dsimp only at hwaits
      split at hwaits <;> cases hwaits
  | waits link wake' hout hstage hunready => simp [isReady, hout, hstage, hunready] at hready

/-- A step that does not end a handshake leaves less to do if there was something to do, and no more otherwise. -/
theorem step_effort (hd : x.Draws brought) (hw : x.link.writeFault = none) {now : Nat}
    (hopen : (x.step now).result = none) :
    (if x.isReady now then 1 else 0) + (x.step now).handshake.effort (x.step now).link
      ≤ x.handshake.effort x.link := by
  have hrunning : ¬ x.result.isSome = true := by
    intro hended
    rw [step_of_ended hended] at hopen
    rw [hopen] at hended
    cases hended
  have heffort := @Handshake.step_effort x.handshake x.link hd.part now
  have hready := fun hready => @step_of_ready x hw now hready
  unfold Exchange.step at hopen ⊢
  rw [if_neg hrunning] at hopen ⊢
  dsimp only at hopen ⊢
  cases houtcome : (x.handshake.step now x.link).outcome with
  | finished result =>
      rw [houtcome] at hopen
      cases hopen
  | moved =>
      have hless := heffort.1 houtcome
      split_ifs <;> omega
  | waiting wake =>
      have hsame := heffort.2 wake houtcome
      split_ifs with hat
      · exact absurd houtcome (hready hat wake)
      · omega

/-- A handshake that has something to do more often than there can be anything is over. -/
theorem Follows.ends (hf : x.Follows h magic) (hd : x.Draws brought) (instants : List Nat)
    (enough : x.handshake.effort x.link < x.chances instants) : ∃ result, (x.run instants).result = some result := by
  induction instants generalizing x with
  | nil => cases enough
  | cons now later ih =>
      show ∃ result, ((x.step now).run later).result = some result
      cases hresult : (x.step now).result with
      | some result => exact ⟨result, by rw [run_ended hresult, hresult]⟩
      | none =>
          have heffort := step_effort hd hf.writes hresult
          rw [chances] at enough
          exact ih (hf.step now) (hd.step hf.writes now) (by omega)

theorem Follows.draws_run (hf : x.Follows h magic) (hd : x.Draws brought) (instants : List Nat) :
    (x.run instants).Draws brought := by
  induction instants generalizing x with
  | nil => exact hd
  | cons now later ih => exact ih (hf.step now) (hd.step hf.writes now)

/-- Over a link on which every read has a result there is always something to do. -/
theorem chances_of_prompt (hp : x.link.Prompt) (instants : List Nat) : x.chances instants = instants.length := by
  induction instants generalizing x with
  | nil => rfl
  | cons now later ih =>
      have hready : x.isReady now = true := by
        obtain ⟨link, r, hreceive, -⟩ := hp.receive now
        rw [isReady, hreceive]
        exact Bool.or_true _
      have hprompt : (x.step now).link.Prompt := by
        have hstepped := step_stepped hp.writes now
        generalize x.step now = x' at hstepped
        cases hstepped with
        | ended | done => exact hp
        | writes m rest =>
            obtain ⟨link, hsend, hprompt, -⟩ := hp.send m
            rw [hsend]
            exact hprompt
        | receives link r _ _ _ hreceive =>
            obtain ⟨link', r', hreceive', hprompt⟩ := hp.receive now
            cases hreceive.symm.trans hreceive'
            exact hprompt
        | waits link wake _ _ _ hunready =>
            obtain ⟨link', r', hreceive, -⟩ := hp.receive now
            cases hunready.symm.trans hreceive
      rw [chances, if_pos hready, ih hprompt, List.length_cons, Nat.add_comm]

end Exchange

namespace Handshake

/-- How a handshake with one peer can go. -/
structure AcceptsExactly (config : ConnectionConfig) (peer : Peer) (nonce : UInt64) (time : Int64) : Prop where
  /-- It reads the shortest prefix of the results with a verdict, which is its own; the peer introduces itself
      and is answered if its first version message is accepted, and otherwise nothing happens to it. -/
  judged : ∀ rs, ∃ read, rs = read ++ ((begin config peer nonce time).converse rs).unread ∧
    Judged config peer nonce time read ((begin config peer nonce time).converse rs)
  succeeds : ∀ rs, ((begin config peer nonce time).converse rs).result = some (.ok ()) ↔
    ∃ read, read <+: rs ∧ Agreed nonce read
  /-- Frames to be skipped, messages of other kinds and repetitions change nothing. -/
  ignores : ∀ pre r post, Idle pre r →
    ((begin config peer nonce time).converse (pre ++ r :: post)).handshake
        = ((begin config peer nonce time).converse (pre ++ post)).handshake ∧
      ((begin config peer nonce time).converse (pre ++ r :: post)).sent
        = ((begin config peer nonce time).converse (pre ++ post)).sent ∧
      ((begin config peer nonce time).converse (pre ++ r :: post)).result
        = ((begin config peer nonce time).converse (pre ++ post)).result
  /-- Over any link whose writes succeed the same happens, with the results that the link gives. -/
  runs : ∀ (link : Link) (instants : List Nat), link.writeFault = none → link.sent = #[] →
    (({ handshake := begin config peer nonce time, link } : Exchange).run instants).Matches
      (begin config peer nonce time)
  /-- There it writes the next message at every step, or else ends, or takes the next result. It waits only while
      there is no result. -/
  steps : ∀ (link : Link) (instants : List Nat) (now : Nat), link.writeFault = none → link.sent = #[] →
    (({ handshake := begin config peer nonce time, link } : Exchange).run instants).Stepped now
      (({ handshake := begin config peer nonce time, link } : Exchange).run (instants ++ [now]))
  /-- When it has had something to do often enough, it is over, and as after the conversation with what the link
      was to bring. -/
  concludes : ∀ (link : Link) (instants : List Nat), link.writeFault = none → link.sent = #[] →
    link.reader.Waits →
    (begin config peer nonce time).effort link
      < ({ handshake := begin config peer nonce time, link } : Exchange).chances instants →
    (({ handshake := begin config peer nonce time, link } : Exchange).run instants).Concludes
      (begin config peer nonce time) ((begin config peer nonce time).brings link)
  /-- If every read has a result, it has something to do at any instant. -/
  prompt : ∀ (link : Link) (instants : List Nat), link.Prompt →
    ({ handshake := begin config peer nonce time, link } : Exchange).chances instants = instants.length

/-- **A handshake accepts exactly the right conversations.** -/
theorem accepts_exactly (config : ConnectionConfig) (peer : Peer) (nonce : UInt64) (time : Int64) :
    AcceptsExactly config peer nonce time where
  judged rs := (converse_judged config peer nonce time rs).1
  succeeds _ := converse_ok_iff
  ignores _ _ post hidle := converse_idle hidle post
  runs link instants hw hsent := ((Exchange.follows_begin hw hsent _).run instants).matches
  steps link instants now hw hsent := by
    have hfollows := (Exchange.follows_begin hw hsent (begin config peer nonce time)).run instants
    rw [Exchange.run_concat]
    exact Exchange.step_stepped hfollows.writes now
  concludes link instants hw hsent hpart enough := by
    have hfollows := Exchange.follows_begin hw hsent (begin config peer nonce time)
    have hdraws : ({ handshake := begin config peer nonce time, link } : Exchange).Draws
        ((begin config peer nonce time).brings link) := ⟨hpart, _, rfl, fun _ => rfl⟩
    obtain ⟨result, hover⟩ := hfollows.ends hdraws instants enough
    exact (hfollows.run instants).concludes (hfollows.draws_run hdraws instants) hover
  prompt link instants hp := Exchange.chances_of_prompt hp instants

end Handshake

end BitcoinCrawl
