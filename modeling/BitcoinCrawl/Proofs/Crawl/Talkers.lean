import BitcoinCrawl.Proofs.Crawl.Progress
import BitcoinCrawl.Proofs.Nonce
import BitcoinCrawl.Proofs.Transport.Framing
import Mathlib.Algebra.Order.BigOperators.Group.List
import Mathlib.Algebra.Order.Ring.Nat

set_option autoImplicit false

/-! # Worlds of talking peers

For every finite network whose messages come back from their frames as they were there is a prompt world that
shows it (`World.talking_shows`, `World.talking_prompt`): each peer introduces itself, acknowledges and then says
what it has to say, a frame for each message. -/

namespace BitcoinCrawl

/-- How a talking peer introduces itself. -/
def greeting : VersionMessage where
  version := minProtocolVersion
  services := .none
  timestamp := 0
  receiver := .ofSocket (.v4 .unspecified 0) .none
  sender := .ofSocket (.v4 .unspecified 0) .none
  nonce := 0
  userAgent := ""
  startHeight := 0
  relay := false

theorem greeting_plain : (Message.version greeting).Plain where
  regular := trivial
  small := by decide

/-- A peer that sends some messages and hangs up. -/
def speaking (magic : Magic) (said : List Message) : List StreamEvent :=
  said.map fun m => .bytes (Frame.encode magic m)

theorem outlook_speaking (magic : Magic) (heard : Heard) {said : List Message} (h : ∀ m ∈ said, m.Plain) :
    Token.outlook magic (Script.tokens heard (speaking magic said))
      = said.map .ok ++ [.error (.transport .endOfStream)] := by
  induction said with
  | nil => exact @Token.outlook_end _ [] rfl
  | cons m rest ih =>
      have hm := h m List.mem_cons_self
      have htokens : Script.tokens heard (speaking magic (m :: rest))
          = (Frame.encode magic m).map .byte ++ Script.tokens heard (speaking magic rest) :=
        Script.tokens_cons ..
      rw [htokens, Token.outlook_frame (hm.next?_append magic), ih fun m' hm' => h m' (List.mem_cons_of_mem _ hm')]
      rfl

theorem delivered_map_ok (said : List Message) :
    delivered (said.map .ok ++ [.error (.transport .endOfStream)]) = said := by
  induction said with
  | nil => rfl
  | cons m rest ih => exact congrArg (m :: ·) ih

namespace Handshake

variable {h : Handshake} {v : VersionMessage}

theorem receive_version (hstage : h.stage = .versionSent) (v : VersionMessage) :
    h.flushed.receive (.ok (.version v)) = h.flushed.onVersion v := by
  simp only [receive, onMessage, flushed, hstage]
  rfl

/-- A handshake that meets its own nonce fails. -/
theorem converse_self (hstage : h.stage = .versionSent) (hself : v.nonce = h.nonce) (rest : List Received) :
    (h.converse (.ok (.version v) :: rest)).result = some (.error .selfDialed) := by
  have hbegun : h.stage ≠ .complete := by
    rw [hstage]
    decide
  have hsame : v.nonce = h.flushed.nonce := hself
  have hfault : (h.flushed.receive (.ok (.version v))).fault = some .selfDialed := by
    rw [receive_version hstage, onVersion, if_pos hsame]
  rw [converse_fault hbegun hfault]

/-- A handshake with a peer that introduces itself and acknowledges is complete, and leaves the rest. -/
theorem converse_greeted (hstage : h.stage = .versionSent) (hother : v.nonce ≠ h.nonce)
    (recent : ¬ v.version < minProtocolVersion) (rest : List Received) :
    (h.converse (.ok (.version v) :: .ok .verack :: rest)).result = some (.ok ()) ∧
      (h.converse (.ok (.version v) :: .ok .verack :: rest)).unread = rest := by
  have hbegun : h.stage ≠ .complete := by
    rw [hstage]
    decide
  have hdistinct : ¬ v.nonce = h.flushed.nonce := hother
  have hnext : (h.flushed.onVersion v).fault = none ∧
      (h.flushed.onVersion v).handshake.stage = .versionReceived := by
    rw [onVersion, if_neg hdistinct, if_neg recent]
    exact ⟨rfl, congrArg HandshakeStage.onVersion hstage⟩
  have hgreeted : (h.flushed.onVersion v).handshake.stage ≠ .complete := by
    rw [hnext.2]
    decide
  have hcomplete : ((h.flushed.onVersion v).handshake.flushed.receive (.ok .verack)).handshake.stage
      = .complete := congrArg HandshakeStage.onVerack hnext.2
  have hreceive := h.receive_version hstage v
  rw [converse_cons hbegun (hreceive ▸ hnext.1), hreceive, converse_cons hgreeted rfl,
    converse_complete hcomplete]
  exact ⟨rfl, rfl⟩

end Handshake

/-- What a peer sends that says something once it has introduced itself and acknowledged. -/
def talk (magic : Magic) (said : List Message) : List StreamEvent :=
  speaking magic (.version greeting :: .verack :: said)

/-- An endpoint with a peer that talks. -/
def talker (magic : Magic) (said : List Message) : Remote where
  answer := .accept (talk magic said) none

namespace World

/-- The link to a peer that speaks. -/
theorem prompt_speaking (world : World) (said : List Message) :
    (world.link (speaking world.config.chain.magic said) none).Prompt := by
  refine ⟨Reader.waits_start, rfl, fun event hmem => ?_⟩
  obtain ⟨m, -, rfl⟩ := List.mem_map.mp hmem
  rfl

variable {world : World} {e : Endpoint} {said : List Message}

theorem outlook_talk (plain : ∀ m ∈ said, m.Plain) :
    (world.link (talk world.config.chain.magic said) none).outlook
      = .ok (.version greeting) :: .ok .verack :: (said.map .ok ++ [.error (.transport .endOfStream)]) := by
  have hplain : ∀ m ∈ .version greeting :: .verack :: said, m.Plain := by
    intro m hmem
    rcases List.mem_cons.mp hmem with rfl | hmem
    · exact greeting_plain
    · rcases List.mem_cons.mp hmem with rfl | hmem
      · exact verack_plain
      · exact plain m hmem
  rw [outlook_link, talk, outlook_speaking _ _ hplain]
  rfl

/-- A handshake with a peer that talks meets its introduction, its acknowledgement and what it says. -/
theorem foretold_talk (plain : ∀ m ∈ said, m.Plain) (h : Handshake) :
    h.foretold (world.link (talk world.config.chain.magic said) none) = h.converse
      (.ok (.version greeting) :: .ok .verack :: (said.map .ok ++ [.error (.transport .endOfStream)])) := by
  have hfair := (world.prompt_speaking (.version greeting :: .verack :: said)).fair
  rw [Handshake.foretold, talk, hfair.outlook_heard, ← talk, outlook_talk plain]

theorem greeting_recent : ¬ greeting.version < minProtocolVersion := by decide

theorem showsAt_talk (answer : (world.remote e).answer = .accept (talk world.config.chain.magic said) none)
    (plain : ∀ m ∈ said, m.Plain) : world.ShowsAt e (some said) := by
  unfold ShowsAt
  rw [answer]
  refine ⟨fun _ => (world.prompt_speaking _).fair, fun nonce time => ?_⟩
  rw [foretold_talk plain]
  by_cases hself : greeting.nonce = nonce
  · exact Or.inl (Handshake.converse_self rfl hself _)
  · have hgreeted := @Handshake.converse_greeted (.begin world.connection { endpoint := e } nonce time)
      greeting rfl hself greeting_recent
    obtain ⟨hresult, hunread⟩ := hgreeted (said.map .ok ++ [.error (.transport .endOfStream)])
    refine Or.inr ⟨hresult, ?_⟩
    rw [hunread]
    exact delivered_map_ok said

theorem answersAt_talk (plain : ∀ m ∈ said, m.Plain) {bound : Nat} (short : said.length + 3 ≤ bound) :
    world.AnswersAt bound e (.accept (talk world.config.chain.magic said) none) := by
  refine ⟨world.prompt_speaking _, ?_, fun host count time => ?_⟩
  · rw [outlook_talk plain]
    simp only [List.length_cons, List.length_append, List.length_map, List.length_nil]
    omega
  · have hother : greeting.nonce ≠ host.nonce count := (host.nonce_ne_zero count).symm
    have hgreeted := @Handshake.converse_greeted
      (.begin world.connection { endpoint := e } (host.nonce count) time) greeting rfl hother greeting_recent
    obtain ⟨hresult, -⟩ := hgreeted (said.map .ok ++ [.error (.transport .endOfStream)])
    rw [foretold_talk plain, hresult]
    simp

end World

/-! ## A world for every finite network -/

theorem lookup_map {α β γ : Type} [BEq α] (f : β → γ) (k : α) (entries : List (α × β)) :
    (entries.map fun entry => (entry.1, f entry.2)).lookup k = (entries.lookup k).map f := by
  induction entries with
  | nil => rfl
  | cons entry rest ih =>
      obtain ⟨key, value⟩ := entry
      simp only [List.map_cons, List.lookup_cons]
      cases k == key with
      | true => rfl
      | false => exact ih

/-- The network that some peers with what they say make up. -/
def Network.ofPeers (peers : List (Endpoint × List Message)) : Network := fun e => peers.lookup e

namespace World

/-- A world where some peers talk and nobody else listens. -/
def talking (config : CrawlConfig) (peers : List (Endpoint × List Message)) : World where
  config := config
  remotes := peers.map fun peer => (peer.1, talker config.chain.magic peer.2)

variable {config : CrawlConfig} {peers : List (Endpoint × List Message)} {e : Endpoint} {said : List Message}

theorem remote_talking (config : CrawlConfig) (peers : List (Endpoint × List Message)) (e : Endpoint) :
    (talking config peers).remote e
      = ((Network.ofPeers peers e).map (talker config.chain.magic)).getD .absent :=
  congrArg (·.getD .absent) (lookup_map (talker config.chain.magic) e peers)

theorem mem_of_ofPeers (h : Network.ofPeers peers e = some said) : (e, said) ∈ peers := by
  obtain ⟨before, after, rfl, -⟩ := List.lookup_eq_some_iff.mp h
  simp

/-- Every finite network of plain messages is shown by a world. -/
theorem talking_shows (config : CrawlConfig) (plain : ∀ peer ∈ peers, ∀ m ∈ peer.2, m.Plain) :
    (talking config peers).Shows (.ofPeers peers) := by
  intro e
  cases hnet : Network.ofPeers peers e with
  | none =>
      unfold ShowsAt
      rw [remote_talking, hnet]
      rfl
  | some said =>
      refine showsAt_talk ?_ (plain _ (mem_of_ofPeers hnet))
      rw [remote_talking, hnet]
      rfl

/-- In that world nobody keeps us waiting. -/
theorem talking_prompt (config : CrawlConfig) (plain : ∀ peer ∈ peers, ∀ m ∈ peer.2, m.Plain) :
    (talking config peers).Prompt ((peers.map (·.2.length)).sum + 3) := by
  intro e
  cases hnet : Network.ofPeers peers e with
  | none =>
      rw [remote_talking, hnet]
      exact ⟨rfl, by simp [AnswersAt, Remote.absent]⟩
  | some said =>
      have hmem := mem_of_ofPeers hnet
      have hle : said.length ≤ (peers.map (·.2.length)).sum := List.le_sum_of_mem (List.mem_map_of_mem hmem)
      rw [remote_talking, hnet]
      exact ⟨rfl, answersAt_talk (plain _ hmem) (Nat.add_le_add_right hle 3)⟩

end World

/-! ## Handshakes that are never kept waiting -/

namespace Handshake

/-- A handshake over a link goes on without waiting at some instant, until it is complete and leaves a link of
    some kind. -/
inductive Shakes (now : Nat) (leaves : Link → Prop) : Handshake → Link → Prop
  | done {h : Handshake} {link : Link} (finished : (h.step now link).outcome = .finished (.ok ()))
      (kind : leaves (h.step now link).link) : Shakes now leaves h link
  | moved {h : Handshake} {link : Link} (on : (h.step now link).outcome = .moved)
      (rest : Shakes now leaves (h.step now link).handshake (h.step now link).link) : Shakes now leaves h link

variable {h : Handshake} {link : Link} {now : Nat} {leaves : Link → Prop}

/-- The next message is written. -/
theorem Shakes.writes {m : Message} {rest : List Message} (hout : h.outbox = m :: rest)
    (hwrite : WriteFault.outcome link.sent.size link.writeFault = .written)
    (hrest : Shakes now leaves { h with outbox := rest }
      { link with sent := link.sent.push (Frame.encode link.magic m), heard := link.heard.hear m }) :
    Shakes now leaves h link := by
  have hstep : h.step now link = (h.wrote m).proceed
      { link with sent := link.sent.push (Frame.encode link.magic m), heard := link.heard.hear m } := by
    simp only [step, hout, Link.send, hwrite]
  refine .moved ?_ ?_
  · rw [hstep]
    rfl
  · rw [hstep]
    simp only [Reaction.proceed, wrote, hout, List.tail_cons]
    exact hrest

/-- The next message is one of the peer, and the handshake does not mind it. -/
theorem Shakes.reads {m : Message} (hplain : m.Plain) (hreader : link.reader = .start)
    (chunks : List Bytes) (rest : Bytes) (hscript : link.script = ⟨chunks.map .bytes, none⟩)
    (hchunks : chunks.flatten = Frame.encode link.magic m ++ rest) (hout : h.outbox = [])
    (hstage : h.stage ≠ .complete) (hfault : (h.receive (.ok m)).fault = none)
    (hrest : ∀ left : List Bytes, left.flatten = rest → Shakes now leaves (h.receive (.ok m)).handshake
      { link with reader := .start, script := ⟨left.map .bytes, none⟩ }) : Shakes now leaves h link := by
  have hnext : Frame.next? link.magic (Reader.start.held ++ chunks.flatten) = some (.ok m, rest) := by
    rw [show Reader.start.held = [] from rfl, List.nil_append, hchunks]
    exact hplain.next?_append link.magic rest
  obtain ⟨left, hleft, -, hread⟩ :=
    Script.read_chunks_of_some link.heard now Reader.waits_start chunks [] hnext
  rw [List.append_nil, List.append_nil] at hread
  have hreceive : link.receive now
      = ({ link with reader := .start, script := ⟨left.map .bytes, none⟩ }, .ready (.ok m)) := by
    simp only [Link.receive, hreader, hscript, hread]
  have hstep : h.step now link = (h.receive (.ok m)).proceed
      { link with reader := .start, script := ⟨left.map .bytes, none⟩ } := by
    simp only [step, hout, if_neg hstage, hreceive, Except.mapError]
  refine .moved ?_ ?_
  · rw [hstep]
    simp only [Reaction.proceed, hfault]
  · rw [hstep]
    exact hrest left hleft

theorem Shakes.completes (hout : h.outbox = []) (hstage : h.stage = .complete) (kind : leaves link) :
    Shakes now leaves h link := by
  have hstep : h.step now link
      = { handshake := h, link, log := #[.debug s!"Handshake with {h.peer} complete"],
          outcome := .finished (.ok ()) } := by
    simp only [step, hout, if_pos hstage]
  refine .done ?_ ?_
  · rw [hstep]
  · rw [hstep]
    exact kind

/-- A handshake that has accepted the peer's introduction writes an acknowledgement and gets one. -/
theorem Shakes.acknowledges (hout : h.outbox = [.verack]) (hstage : h.stage = .versionReceived)
    (hwrite : WriteFault.outcome link.sent.size link.writeFault = .written) (hreader : link.reader = .start)
    (chunks : List Bytes) (hscript : link.script = ⟨chunks.map .bytes, none⟩)
    (hchunks : chunks.flatten = Frame.encode link.magic .verack)
    (kind : ∀ link', link'.sent.size = link.sent.size + 1 → link'.writeFault = link.writeFault → leaves link') :
    Shakes now leaves h link := by
  have hincomplete : h.stage ≠ .complete := by
    rw [hstage]
    decide
  refine .writes hout hwrite
    (.reads verack_plain hreader chunks [] hscript ?_ rfl hincomplete rfl fun left _ => ?_)
  · rw [hchunks, List.append_nil]
  · exact .completes rfl (congrArg HandshakeStage.onVerack hstage) (kind _ (Array.size_push _) rfl)

/-- A handshake with a peer that introduces itself and acknowledges writes two messages, and is complete if
    these are taken. -/
theorem shakes_greeted {config : ConnectionConfig} (peer : Peer) {nonce : UInt64} (time : Int64) (now : Nat)
    (magic : Magic) {writeFault : Option WriteFault} (hother : greeting.nonce ≠ nonce)
    (hreplies : replies config greeting.version = [.verack])
    (hwrites : ∀ n < 2, WriteFault.outcome n writeFault = .written) :
    Shakes now (fun link => link.sent.size = 2 ∧ link.writeFault = writeFault)
      (begin config peer nonce time) { magic, script := ⟨talk magic [], none⟩, writeFault } := by
  have hreceive := receive_version (h := begin config peer nonce time) rfl greeting
  have hgreeted : ((begin config peer nonce time).flushed.onVersion greeting).fault = none ∧
      ((begin config peer nonce time).flushed.onVersion greeting).handshake.stage = .versionReceived ∧
      ((begin config peer nonce time).flushed.onVersion greeting).handshake.outbox = [.verack] := by
    have hdistinct : ¬ greeting.nonce = (begin config peer nonce time).flushed.nonce := hother
    rw [onVersion, if_neg hdistinct, if_neg World.greeting_recent]
    exact ⟨rfl, rfl, hreplies⟩
  rw [← hreceive] at hgreeted
  obtain ⟨hfault, hstage, hout⟩ := hgreeted
  have hopen : HandshakeStage.versionSent ≠ .complete := by decide
  refine .writes rfl (hwrites 0 (by decide)) (.reads greeting_plain rfl
    [Frame.encode magic (.version greeting), Frame.encode magic .verack] (Frame.encode magic .verack)
    rfl ?_ rfl hopen hfault ?_)
  · rw [List.flatten_cons, List.flatten_cons, List.flatten_nil, List.append_nil]
  · intro left hleft
    refine .acknowledges hout hstage (hwrites 1 (by decide)) rfl left rfl hleft fun link' hsize hsame => ?_
    exact ⟨hsize, hsame⟩

end Handshake

end BitcoinCrawl
