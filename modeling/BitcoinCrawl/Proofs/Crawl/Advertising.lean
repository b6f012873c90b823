import BitcoinCrawl.Proofs.Crawl.Settings
import BitcoinCrawl.Proofs.Peering.Writing

set_option autoImplicit false

/-! # Advertised user agents

A handshake writes one version message at most (`written_exchange`), and its user agent is the configured one
(`advertised_iff`). The main theorem (`advertised_wellShaped_iff`) says which configurations advertise only agents of
the required shape. An agent that is read from a text has it; one that is put together from parts is advertised as it
is. -/

namespace BitcoinCrawl

/-! ## What a configuration advertises -/

namespace ConnectionConfig

variable {config : ConnectionConfig} {text : String}

/-- A handshake over a link, before its first step. -/
def exchange (config : ConnectionConfig) (peer : Peer) (nonce : UInt64) (time : Int64) (link : Link) : Exchange :=
  { handshake := .begin config peer nonce time, link }

/-- A text is the user agent in a version message that some handshake writes. -/
def Advertised (config : ConnectionConfig) (text : String) : Prop :=
  ∃ peer nonce time link instants v,
    .version v ∈ (config.exchange peer nonce time link).written instants ∧ v.userAgent = text

/-- A handshake introduces us once at most, and first of all. -/
theorem written_exchange (config : ConnectionConfig) (peer : Peer) (nonce : UInt64) (time : Int64) (link : Link)
    (instants : List Nat) : ∃ answers, Answers answers ∧
      (config.exchange peer nonce time link).written instants
        <+: .version (config.introduction peer nonce time) :: answers :=
  (config.exchange peer nonce time link).written_inOrder instants

theorem Advertised.eq_agentText (h : config.Advertised text) : text = config.agentText := by
  obtain ⟨peer, nonce, time, link, instants, v, hmem, rfl⟩ := h
  obtain ⟨answers, hanswers, hstart⟩ := config.written_exchange peer nonce time link instants
  rcases List.mem_cons.mp (hstart.subset hmem) with hintroduction | hanswer
  · cases hintroduction
    rfl
  · exact absurd hanswer (hanswers v)

/-- A link that takes all writes, to a peer that says nothing. -/
def silentLink : Link where
  magic := Chain.regtest.magic
  script := ⟨[.hold], none⟩

theorem advertised_agentText (config : ConnectionConfig) : config.Advertised config.agentText := by
  let peer : Peer := { endpoint := .ofSocket (.v4 .unspecified 0) }
  refine ⟨peer, 1, 0, silentLink, [0], config.introduction peer 1 0, ?_, rfl⟩
  exact List.mem_singleton_self _

theorem advertised_iff : config.Advertised text ↔ text = config.agentText :=
  ⟨Advertised.eq_agentText, fun h => h ▸ config.advertised_agentText⟩

end ConnectionConfig

/-! ## What can be configured -/

namespace UserAgent

/-- The agents that one can get: those of texts that are accepted, and those that are put together from parts. -/
inductive Obtainable : UserAgent → Prop
  | parsed {text : String} {agent : UserAgent} (accepted : parse text = .ok agent) : Obtainable agent
  | assembled (name version : String) : Obtainable (.ofParts name version)

/-- Texts that have the shape of a user agent. -/
def WellShaped (text : String) : Prop := ∃ parts, check text.toList = .ok parts

theorem wellShaped_ofParts_iff {name version : String} :
    WellShaped (ofParts name version).text ↔ IsPart name.toList ∧ IsPart version.toList :=
  (ofParts_spelled name version).accepted_iff

theorem wellShaped_default : WellShaped defaultUserAgent.text :=
  wellShaped_ofParts_iff.mpr ⟨⟨by decide, by decide⟩, by decide, by decide⟩

/-- An agent has the required shape unless it is put together from something else than a name and a version. -/
theorem Obtainable.wellShaped {agent : UserAgent} (h : agent.Obtainable)
    (parts : ∀ name version, agent = .ofParts name version → IsPart name.toList ∧ IsPart version.toList) :
    WellShaped agent.text := by
  cases h with
  | parsed accepted =>
      obtain ⟨hsame, hshape⟩ := parse_eq_ok.mp accepted
      rwa [hsame]
  | assembled name version => exact wellShaped_ofParts_iff.mpr (parts name version rfl)

end UserAgent

namespace ConnectionConfig

open UserAgent

variable {config : ConnectionConfig}

/-- The configurations that one can get. -/
inductive Obtainable : ConnectionConfig → Prop
  /-- The plain one, with an agent or without. -/
  | nonListening (protocolVersion : Option UInt32) {userAgent : Option UserAgent}
      (obtainable : ∀ agent ∈ userAgent, agent.Obtainable) : Obtainable { protocolVersion, userAgent }
  /-- Anything but the agent may be changed, such as the time for a dial. -/
  | adjusted {config config' : ConnectionConfig} (obtainable : Obtainable config)
      (same : config'.userAgent = config.userAgent) : Obtainable config'
  /-- That of a crawl whose settings were accepted. -/
  | crawling {settings : CrawlConfig} (accepted : settings.Accepted) : Obtainable settings.connection

theorem Obtainable.userAgent (h : config.Obtainable) : ∀ agent ∈ config.userAgent, agent.Obtainable := by
  induction h with
  | nonListening _ obtainable => exact obtainable
  | adjusted _ same ih => rwa [same]
  | crawling accepted =>
      intro agent hagent
      exact .parsed ((CrawlConfig.accepted_iff.mp accepted).agent agent hagent)

theorem Obtainable.wellShaped (h : config.Obtainable)
    (parts : ∀ name version, config.userAgent = some (.ofParts name version) →
      IsPart name.toList ∧ IsPart version.toList) : WellShaped config.agentText := by
  have hobtainable := h.userAgent
  rw [agentText]
  cases hagent : config.userAgent with
  | none => exact wellShaped_default
  | some agent =>
      refine (hobtainable agent hagent).wellShaped fun name version hparts => parts name version ?_
      rw [hagent, hparts]

/-- A crawl advertises a text that was accepted, or the default. -/
theorem wellShaped_crawling {settings : CrawlConfig} (accepted : settings.Accepted) :
    WellShaped settings.connection.agentText := by
  have hobtainable : settings.connection.Obtainable := .crawling accepted
  refine hobtainable.wellShaped fun name version hparts => ?_
  have hparse := (CrawlConfig.accepted_iff.mp accepted).agent _ hparts
  exact wellShaped_ofParts_iff.mp (parse_eq_ok.mp hparse).2

/-- **A configuration advertises nothing but user agents of the required shape exactly if its agent, should it be put
    together from a name and a version, has a name and a version that are not empty and hold no colon.** Putting an
    agent together checks neither; all other agents that one can get have the shape, and so has the default.

    * Over any link, whatever becomes of the writes, a handshake writes one version message at most, and writes it
      first. What is on the link are whole frames of what it writes.
    * The only text that is advertised is that of the configured agent, or of the default.
    * A crawl whose settings were accepted advertises only agents of the required shape. -/
theorem advertised_wellShaped_iff (obtainable : config.Obtainable) :
    ((∀ text, config.Advertised text → WellShaped text) ↔
      ∀ name version, config.userAgent = some (.ofParts name version) →
        IsPart name.toList ∧ IsPart version.toList) ∧
    (∀ peer nonce time link instants,
      (∃ answers, Answers answers ∧ (config.exchange peer nonce time link).written instants
        <+: .version (config.introduction peer nonce time) :: answers) ∧
      ((config.exchange peer nonce time link).run instants).link.sent.toList = link.sent.toList ++
        ((config.exchange peer nonce time link).written instants).map (Frame.encode link.magic)) ∧
    (∀ text, config.Advertised text ↔ text = config.agentText) ∧
    (∀ settings : CrawlConfig, settings.Accepted →
      ∀ text, settings.connection.Advertised text → WellShaped text) := by
  refine ⟨⟨fun hall name version hagent => ?_, fun hparts text hadvertised => ?_⟩,
    fun peer nonce time link instants => ⟨config.written_exchange peer nonce time link instants,
      (config.exchange peer nonce time link).sent_run instants⟩, fun _ => advertised_iff,
    fun settings accepted text hadvertised => ?_⟩
  · have hshape : WellShaped config.agentText := hall _ config.advertised_agentText
    rw [agentText, hagent] at hshape
    exact wellShaped_ofParts_iff.mp hshape
  · rw [advertised_iff.mp hadvertised]
    exact obtainable.wellShaped hparts
  · rw [advertised_iff.mp hadvertised]
    exact wellShaped_crawling accepted

/-- A configuration with an agent that is put together from parts, and little time for a dial. -/
def slashConfig : ConnectionConfig where
  protocolVersion := some 70016
  userAgent := some (.ofParts "my/crawler" "1.0")
  dialTimeout := 3000

theorem slashConfig_advertised :
    slashConfig.Obtainable ∧ slashConfig.agentText = "/my/crawler:1.0/" ∧
      ∀ text, slashConfig.Advertised text → WellShaped text := by
  have hobtainable : slashConfig.Obtainable := by
    refine .adjusted (.nonListening (some 70016) ?_) rfl
    rintro _ ⟨⟩
    exact .assembled "my/crawler" "1.0"
  have hshape : WellShaped (ofParts "my/crawler" "1.0").text :=
    wellShaped_ofParts_iff.mpr ⟨⟨by decide, by decide⟩, by decide, by decide⟩
  refine ⟨hobtainable, rfl, (advertised_wellShaped_iff hobtainable).1.mpr fun name version hagent => ?_⟩
  rw [Option.some_inj.mp hagent] at hshape
  exact wellShaped_ofParts_iff.mp hshape

/-- A configuration with an agent whose name holds a colon. -/
def colonConfig : ConnectionConfig where
  protocolVersion := some 70016
  userAgent := some (.ofParts "node:scan" "0.1.0")

/-- What is advertised then is no user agent. -/
theorem misshaped_advertised :
    colonConfig.Obtainable ∧ colonConfig.Advertised "/node:scan:0.1.0/" ∧
      parse "/node:scan:0.1.0/" = .error .format ∧
      ¬ ∀ config : ConnectionConfig, config.Obtainable → ∀ text, config.Advertised text → WellShaped text := by
  have hobtainable : colonConfig.Obtainable := by
    refine .nonListening (some 70016) ?_
    rintro _ ⟨⟩
    exact .assembled "node:scan" "0.1.0"
  have hadvertised : colonConfig.Advertised "/node:scan:0.1.0/" := colonConfig.advertised_agentText
  have hparse : parse "/node:scan:0.1.0/" = .error .format := parse_eq_error.mpr (by decide)
  refine ⟨hobtainable, hadvertised, hparse, fun hall => ?_⟩
  obtain ⟨parts, hparts⟩ := hall colonConfig hobtainable _ hadvertised
  rw [parse_eq_error.mp hparse] at hparts
  cases hparts

end ConnectionConfig

end BitcoinCrawl
