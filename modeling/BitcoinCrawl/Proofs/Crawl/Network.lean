import BitcoinCrawl.Crawl.Step
import BitcoinCrawl.Proofs.Peering.Foretold

set_option autoImplicit false

/-! # Networks

A `Network` says of every endpoint whether it can be connected to, and which messages come then. A world shows
a network (`World.Shows`) if what its remotes send amounts to that, however they cut it into chunks and
pauses. Dials keep to it (`Dial.Keeps`): one that succeeds leaves a link that brings the messages, and one that
fails was to an endpoint that refuses, unless it met our own nonce. -/

namespace BitcoinCrawl

/-- What endpoints do when they are dialed: refuse, or accept and then say some messages before they hang
    up. -/
abbrev Network := Endpoint → Option (List Message)

/-- The endpoints that some messages announce, as far as they can be dialed. -/
def announcements (said : List Message) : List Endpoint :=
  said.flatMap fun m => (Notice.ofMessage m).announced

namespace Network

/-- The messages from an endpoint. -/
def said (net : Network) (e : Endpoint) : List Message := (net e).getD []

/-- The endpoints that can be heard of: the seeds, and whatever one of them announces. -/
inductive Reachable (net : Network) (seeds : List Endpoint) : Endpoint → Prop
  | seed (e : Endpoint) (h : e ∈ seeds) : Reachable net seeds e
  | announced (teller e : Endpoint) (known : Reachable net seeds teller)
      (h : e ∈ announcements (net.said teller)) : Reachable net seeds e

end Network

/-- A handshake is refused, or it succeeds before some messages, unless it finds our own nonce. -/
def Handshake.Conversation.Ends (c : Conversation) : Option (List Message) → Prop
  | none => c.result ≠ some (.ok ())
  | some said => c.result = some (.error .selfDialed) ∨ c.result = some (.ok ()) ∧ delivered c.unread = said

namespace World

/-- The link to a peer that has just accepted. -/
def link (world : World) (events : List StreamEvent) (writeFault : Option WriteFault) : Link :=
  { magic := world.config.chain.magic, script := ⟨events, none⟩, writeFault }

theorem outlook_link (world : World) (events : List StreamEvent) (writeFault : Option WriteFault) :
    (world.link events writeFault).outlook = Token.outlook world.config.chain.magic (Script.tokens {} events) :=
  rfl

/-- An endpoint does what a network says of it: if it answers at all, and takes what we write if it is to be
    connected to, the handshake ends accordingly under every nonce. -/
def ShowsAt (world : World) (e : Endpoint) (said : Option (List Message)) : Prop :=
  match (world.remote e).answer with
  | .refuse _ | .silence => said = none
  | .accept events writeFault =>
    (said.isSome = true → (world.link events writeFault).Fair) ∧ ∀ nonce time,
      ((Handshake.begin world.connection { endpoint := e } nonce time).foretold
        (world.link events writeFault)).Ends said

/-- What is out there amounts to a network. -/
def Shows (world : World) (net : Network) : Prop := ∀ e, world.ShowsAt e (net e)

end World

namespace Dial

/-- A dial that will end as a network says of its endpoint. -/
def Keeps (said : Option (List Message)) : Dial → Prop
  | unanswered _ => True
  | shaking handshake link =>
    link.reader.Waits ∧ (said.isSome = true → link.Fair) ∧ (handshake.foretold link).Ends said

variable {world : World} {e : Endpoint} {said : Option (List Message)}

/-- What a step of a dial comes to if the network is right about its endpoint. -/
inductive Honours (said : Option (List Message)) :
    Dial × Shared × Advance (Except ConnectionFault Connected) → Prop
  | moved (dial : Dial) (s : Shared) (keeps : dial.Keeps said) : Honours said (dial, s, .moved)
  | waiting (dial : Dial) (s : Shared) (wake : Option Nat) (keeps : dial.Keeps said) :
      Honours said (dial, s, .waiting wake)
  | connected (dial : Dial) (s : Shared) (connected : Connected) (fair : connected.link.Fair)
      (foretold : said = some (delivered connected.link.outlook)) :
      Honours said (dial, s, .finished (.ok connected))
  | failed (dial : Dial) (s : Shared) (fault : ConnectionFault) (why : said = none ∨ fault = .selfDialed) :
      Honours said (dial, s, .finished (.error fault))

theorem answered_honours (shows : world.ShowsAt e said) (due : Nat) (s : Shared) :
    Honours said (answered world e due s) := by
  unfold answered
  unfold World.ShowsAt at shows
  split
  next hanswer =>
    rw [hanswer] at shows
    exact .failed _ _ _ (.inl shows)
  next hanswer => exact .waiting _ _ _ trivial
  next events writeFault hanswer =>
    rw [hanswer] at shows
    exact .moved _ _ ⟨Reader.waits_start, shows.1, shows.2 _ _⟩

theorem shaking_honours {handshake : Handshake} {link : Link} (h : (shaking handshake link).Keeps said)
    (s : Shared) : Honours said ((shaking handshake link).step world e s) := by
  obtain ⟨hw, hfair, hends⟩ := h
  have hsteps := handshake.step_foretells hw s.now
  have hkeeps : (∀ result, (handshake.step s.now link).outcome ≠ .finished result) →
      (shaking (handshake.step s.now link).handshake (handshake.step s.now link).link).Keeps said := by
    intro hopen
    obtain ⟨hresult, hunread⟩ := hsteps.goesOn hopen
    refine ⟨hsteps.part, fun hsome => hsteps.fair (hfair hsome), ?_⟩
    unfold Handshake.Conversation.Ends at hends ⊢
    rwa [hresult, hunread]
  simp only [step]
  cases houtcome : (handshake.step s.now link).outcome with
  | moved => exact .moved _ _ (hkeeps (by rw [houtcome]; exact nofun))
  | waiting wake => exact .waiting _ _ _ (hkeeps (by rw [houtcome]; exact nofun))
  | finished result =>
      cases said with
      | none =>
          cases result with
          | ok _ => exact absurd (hsteps.succeeds houtcome).1 hends
          | error fault => exact .failed _ _ _ (.inl rfl)
      | some msgs =>
          have hfair' := hsteps.fair (hfair rfl)
          cases result with
          | ok _ =>
              obtain ⟨hresult, hunread⟩ := hsteps.succeeds houtcome
              rcases hends with hself | ⟨-, hmsgs⟩
              · cases hresult.symm.trans hself
              · refine .connected _ _ _ hfair' ?_
                rw [← hmsgs, hunread]
          | error fault =>
              have hresult := hsteps.fails (hfair rfl) fault houtcome
              rcases hends with hself | ⟨hok, -⟩
              · cases hresult.symm.trans hself
                exact .failed _ _ _ (.inr rfl)
              · cases hresult.symm.trans hok

/-- Dials of a world that shows a network do what the network says. -/
theorem step_honours {dial : Dial} (shows : world.ShowsAt e said) (h : dial.Keeps said) (s : Shared) :
    Honours said (dial.step world e s) := by
  cases dial with
  | unanswered due =>
      simp only [step]
      split_ifs
      · exact answered_honours shows _ s
      · exact .waiting _ _ _ trivial
  | shaking handshake link => exact shaking_honours h s

end Dial

end BitcoinCrawl
