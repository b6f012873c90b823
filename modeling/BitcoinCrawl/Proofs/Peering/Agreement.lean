import BitcoinCrawl.Proofs.Peering.Pair

set_option autoImplicit false

/-! # Two handshakes agree

Of two handshakes with each other neither believes in a connection that the other has refused, and if neither
has a reason to refuse the other both succeed: whatever the order of their steps and however bytes arrive,
there is something left to do until then (`Pair.handshakes_agree`). -/

namespace BitcoinCrawl

open Handshake

/-! ## What is heard

A party hears a beginning of what the other says, and what it makes of that depends on little: whether there
was anything, whether it refuses the other, and whether the acknowledgement has come. -/

/-- An answer ends with the acknowledgement. -/
theorem Handshake.replies_eq (config : ConnectionConfig) (version : UInt32) :
    ∃ first, replies config version = first ++ [.verack] ∧ .verack ∉ first := by
  unfold replies
  dsimp only
  split_ifs
  · exact ⟨[.sendAddrV2], rfl, by simp⟩
  · exact ⟨[], rfl, by simp⟩

namespace Party

/-- Why a party refuses another, if it does. -/
def refusal? (a b : Party) : Option ConnectionFault :=
  if b.nonce = a.nonce then some .selfDialed
  else if b.config.advertisedVersion < minProtocolVersion then
    some (.obsolete b.config.advertisedVersion)
  else none

variable {a b : Party} {read : List Received} {heard unheard : List Message}

theorem accepts_iff : Accepts a.nonce b.introduction ↔ a.refusal? b = none := by
  unfold Accepts refusal?
  split_ifs with hnonce hold
  · exact ⟨fun h => absurd hnonce h.1, nofun⟩
  · exact ⟨fun h => absurd hold h.2, nofun⟩
  · exact ⟨fun _ => rfl, fun _ => ⟨hnonce, hold⟩⟩

/-- Whoever has heard anything has heard the introduction. -/
theorem version?_heard (hspeech : b.speech read = heard ++ unheard) (some : heard ≠ []) :
    (heard.map Except.ok : List Received).findSome? version? = .some b.introduction := by
  cases heard with
  | nil => exact absurd rfl some
  | cons m rest =>
      obtain rfl := (List.cons.inj hspeech).1
      rfl

theorem terminal?_heard (heard : List Message) :
    (heard.map Except.ok : List Received).findSome? terminal? = none := by
  rw [List.findSome?_eq_none_iff]
  intro r hmem
  obtain ⟨m, -, rfl⟩ := List.mem_map.mp hmem
  rfl

theorem isVerack_heard (heard : List Message) :
    (heard.map Except.ok : List Received).any isVerack = true ↔ .verack ∈ heard := by
  rw [List.any_map, List.any_eq_true]
  constructor
  · rintro ⟨m, hmem, hverack⟩
    cases m <;> first | exact hmem | cases hverack
  · exact fun hmem => ⟨.verack, hmem, rfl⟩

theorem verdict_refused {fault : ConnectionFault} (hspeech : b.speech read = heard ++ unheard) (some : heard ≠ [])
    (refused : a.refusal? b = .some fault) :
    verdict a.nonce (heard.map .ok) = .some (.error fault) := by
  simp only [verdict, terminal?_heard, version?_heard hspeech some]
  unfold refusal? at refused
  split_ifs at refused with hnonce hold
  · cases refused
    exact if_pos hnonce
  · cases refused
    exact (if_neg hnonce).trans (if_pos hold)

theorem verdict_accepted (hspeech : b.speech read = heard ++ unheard) (some : heard ≠ [])
    (accepted : a.refusal? b = none) :
    verdict a.nonce (heard.map .ok) = if .verack ∈ heard then .some (.ok ()) else none := by
  obtain ⟨hnonce, hold⟩ := accepts_iff.mpr accepted
  simp only [verdict, terminal?_heard, version?_heard hspeech some, if_neg hnonce, if_neg hold, isVerack_heard]

theorem accepted?_heard (hspeech : b.speech read = heard ++ unheard) (some : heard ≠ [])
    (accepted : a.refusal? b = none) : accepted? a.nonce (heard.map .ok) = .some b.introduction := by
  rw [accepted?, version?_heard hspeech some, Option.filter_some,
    if_pos (decide_eq_true (accepts_iff.mpr accepted))]

/-- Who has heard nothing, or refuses what it has heard, answers nothing. -/
theorem answers_eq_nil (hspeech : b.speech read = heard ++ unheard) (h : heard = [] ∨ a.refusal? b ≠ none) :
    answers a.config a.nonce (heard.map .ok) = [] := by
  by_cases hnone : heard = []
  · rw [hnone]
    rfl
  · have hrefused := h.resolve_left hnone
    have hnot : ¬ Accepts a.nonce b.introduction := fun haccepts => hrefused (accepts_iff.mp haccepts)
    rw [answers, accepted?, version?_heard hspeech hnone, Option.filter_some, if_neg (by simpa using hnot)]
    rfl

theorem answers_accepted (hspeech : b.speech read = heard ++ unheard) (some : heard ≠ [])
    (accepted : a.refusal? b = none) :
    answers a.config a.nonce (heard.map .ok) = replies a.config b.config.advertisedVersion := by
  rw [answers, accepted?_heard hspeech some accepted]
  rfl

theorem length_speech (a : Party) (read : List Received) : (a.speech read).length ≤ 3 := by
  unfold Party.speech answers
  cases accepted? a.nonce read with
  | none => exact Nat.le_add_left 1 2
  | some v =>
      simp only [Option.elim_some, replies]
      split_ifs
      · exact Nat.le_refl 3
      · exact Nat.le_succ 2

/-- A party acknowledges only what it has accepted. -/
theorem accepted_of_verack (hspeech : b.speech read = heard ++ unheard)
    (hverack : .verack ∈ a.speech (heard.map .ok)) : heard ≠ [] ∧ a.refusal? b = none := by
  have hanswers : ¬ (heard = [] ∨ a.refusal? b ≠ none) := by
    intro hnot
    rw [speech, answers_eq_nil hspeech hnot] at hverack
    cases List.mem_singleton.mp hverack
  rwa [not_or, not_not] at hanswers

/-- Behind the acknowledgement there is nothing. -/
theorem eq_nil_of_verack (hspeech : b.speech read = heard ++ unheard) (hverack : .verack ∈ heard) :
    unheard = [] := by
  obtain ⟨first, hfirst, hend⟩ : ∃ first, .verack ∉ first ∧
      (b.speech read = first ∨ b.speech read = first ++ [.verack]) := by
    unfold speech answers
    cases accepted? b.nonce read with
    | none => exact ⟨[.version b.introduction], by simp, .inl rfl⟩
    | some v =>
        obtain ⟨first, hreplies, hfirst⟩ := replies_eq b.config v.version
        refine ⟨.version b.introduction :: first, by simpa using hfirst, .inr ?_⟩
        rw [Option.elim_some, hreplies, List.cons_append]
  rcases hend with hnone | hlast
  · exact absurd (hnone ▸ hspeech ▸ List.mem_append_left _ hverack) hfirst
  · rcases List.eq_nil_or_concat unheard with hnil | ⟨before, last, rfl⟩
    · exact hnil
    · rw [hspeech, List.concat_eq_append, ← List.append_assoc] at hlast
      obtain ⟨hbefore, -⟩ := List.append_inj' hlast rfl
      exact absurd (hbefore ▸ List.mem_append_left _ hverack) hfirst

end Party

namespace Pair

variable {magic : Magic} {a b : Party} {p : Pair} {heard unheard : List Message} {left chunks : List Bytes}

/-- What the near end has heard of the far end's speech, and where the rest of that is. -/
structure Understands (magic : Magic) (b : Party) (p : Pair) (heard unheard : List Message)
    (left chunks : List Bytes) : Prop where
  speech : b.speech p.far.exchange.received = heard ++ unheard
  received : p.near.exchange.received = heard.map .ok
  rest : unheard.map (Frame.encode magic) = left ++ p.far.exchange.handshake.outbox.map (Frame.encode magic)
  carries : Carries magic p.far.exchange.link.sent.toList p.near (heard.map (Frame.encode magic)) left chunks

theorem Coupled.understands (h : p.Coupled magic a b) :
    ∃ heard unheard left chunks, p.Understands magic b heard unheard left chunks := by
  obtain ⟨got, left, chunks, hc⟩ := h.near.hears
  have hsaid := h.far.follows.said
  have hspoken := h.far.spoken
  simp only [Pair.swap] at hsaid hspoken
  rw [hc.sent, List.append_assoc] at hsaid
  obtain ⟨heard, unheard, hspeech, hgot, hrest⟩ := List.map_eq_append_iff.mp hsaid.symm
  subst hgot
  refine ⟨heard, unheard, left, chunks, hspeech, ?_, hrest, hc⟩
  rw [hc.received, List.map_map]
  refine List.map_congr_left fun m hmem => ?_
  have hplain : m.Plain := Party.speech_plain h.far.plain (hspeech ▸ List.mem_append_left _ hmem)
  show (Frame.decode magic (Frame.encode magic m)).mapError ConnectionFault.transport = .ok m
  rw [hplain.decode magic]
  rfl

/-! ## Results -/

theorem Attends.result (h : p.Attends magic a) {result : Except ConnectionFault Unit}
    (hresult : p.near.exchange.result = some result) :
    verdict a.nonce p.near.exchange.received = some result := by
  rw [← h.follows.judged.result]
  exact h.follows.matches.ended result hresult

/-- A result is due to what was heard, and to nothing less. -/
theorem Understands.result (hu : p.Understands magic b heard unheard left chunks) (h : p.Attends magic a)
    {result : Except ConnectionFault Unit} (hresult : p.near.exchange.result = some result) :
    heard ≠ [] ∧ verdict a.nonce (heard.map .ok) = some result := by
  have hverdict := h.result hresult
  rw [hu.received] at hverdict
  refine ⟨?_, hverdict⟩
  rintro rfl
  cases hverdict

/-- A success takes an acknowledgement by one who is not refused. -/
theorem Understands.verack (hu : p.Understands magic b heard unheard left chunks) (h : p.Attends magic a)
    (hok : p.near.exchange.result = some (.ok ())) : a.refusal? b = none ∧ .verack ∈ heard := by
  obtain ⟨hsome, hverdict⟩ := hu.result h hok
  cases hrefusal : a.refusal? b with
  | none =>
      rw [Party.verdict_accepted hu.speech hsome hrefusal] at hverdict
      by_contra hnot
      rw [if_neg fun hverack => hnot ⟨rfl, hverack⟩] at hverdict
      cases hverdict
  | some fault =>
      rw [Party.verdict_refused hu.speech hsome hrefusal] at hverdict
      cases hverdict

/-- A refusal is the only way to end with one who is refused. -/
theorem Understands.refused (hu : p.Understands magic b heard unheard left chunks) (h : p.Attends magic a)
    {fault : ConnectionFault} (refused : a.refusal? b = some fault) {result : Except ConnectionFault Unit}
    (hresult : p.near.exchange.result = some result) : result = .error fault := by
  obtain ⟨hsome, hverdict⟩ := hu.result h hresult
  rw [Party.verdict_refused hu.speech hsome refused] at hverdict
  exact (Option.some.inj hverdict).symm

/-- One who is not refused is accepted as soon as anything of it is heard. -/
theorem Understands.hasVersion (hu : p.Understands magic b heard unheard left chunks) (h : p.Attends magic a)
    (accepted : a.refusal? b = none) (some : heard ≠ []) :
    p.near.exchange.handshake.stage.hasVersion = true := by
  have hj := h.follows.judged
  have hresult := hj.result
  rw [hu.received, Party.verdict_accepted hu.speech some accepted, ← hu.received] at hresult
  rw [← h.follows.stage]
  cases hended : (a.handshake.converse p.near.exchange.received).result with
  | none =>
      have hs := (converse_judged a.config a.peer a.nonce a.time p.near.exchange.received).2 hended
      have hstage := hs.stage
      rw [hu.received, Party.version?_heard hu.speech some, ← hu.received] at hstage
      show ((begin a.config a.peer a.nonce a.time).converse _).handshake.stage.hasVersion = true
      rw [hstage]
      cases p.near.exchange.received.any isVerack <;> rfl
  | some result =>
      rw [hended] at hresult
      split_ifs at hresult
      cases hresult
      rw [converse_ok_stage hended]
      rfl

theorem Understands.peer (hu : p.Understands magic b heard unheard left chunks) (h : p.Attends magic a)
    (accepted : a.refusal? b = none) (some : heard ≠ []) :
    p.near.exchange.handshake.peer = introduced a.peer b.introduction := by
  rw [← h.follows.matches.peer, h.follows.judged.peer, hu.received,
    Party.accepted?_heard hu.speech some accepted]
  rfl

/-- What a success at the near end means. -/
structure Concluded (magic : Magic) (a b : Party) (p : Pair) : Prop where
  /-- The peer is where it was, and otherwise the far end as it presents itself. -/
  peer : p.near.exchange.handshake.peer = { a.peer with
    services := some b.config.services
    version := some b.config.advertisedVersion
    userAgent := some b.config.agentText }
  /-- Everything is said. -/
  sent : p.near.exchange.link.sent.toList
    = (.version a.introduction :: replies a.config b.config.advertisedVersion).map (Frame.encode magic)
  /-- The newer address format is asked for if it is wanted and both know it. -/
  addrV2 : Frame.encode magic .sendAddrV2 ∈ p.near.exchange.link.sent.toList ↔
    a.config.requestAddrV2 = true ∧
      addrV2ProtocolVersion ≤ min a.config.advertisedVersion b.config.advertisedVersion
  /-- Nothing is unread, and nothing on the way. -/
  silent : p.near.exchange.link.unread = [] ∧ p.near.coming = []
  /-- The far end has accepted the near end's version, and knows it. -/
  accepted : p.far.exchange.handshake.stage.hasVersion = true ∧
    p.far.exchange.handshake.peer = introduced b.peer a.introduction

/-- No other message looks like the request. -/
theorem mem_sendAddrV2 (fits : (Message.version a.introduction).Plain) {read : List Received} :
    Frame.encode magic .sendAddrV2 ∈ (a.speech read).map (Frame.encode magic) ↔
      .sendAddrV2 ∈ answers a.config a.nonce read := by
  constructor
  · intro hmem
    obtain ⟨m, hm, hframe⟩ := List.mem_map.mp hmem
    have hdecode := (Party.speech_plain fits hm).decode magic
    rw [hframe, sendAddrV2_plain.decode magic] at hdecode
    cases hdecode
    rcases List.mem_cons.mp hm with hversion | hanswer
    · cases hversion
    · exact hanswer
  · exact fun hmem => List.mem_map_of_mem (List.mem_cons_of_mem _ hmem)

theorem mem_replies {config : ConnectionConfig} {version : UInt32} :
    .sendAddrV2 ∈ replies config version ↔
      config.requestAddrV2 = true ∧ addrV2ProtocolVersion ≤ min config.advertisedVersion version := by
  unfold replies
  dsimp only
  split_ifs with hboth <;> simpa using hboth

theorem Coupled.concluded (h : p.Coupled magic a b) (hok : p.near.exchange.result = some (.ok ())) :
    p.Concluded magic a b := by
  obtain ⟨heard, unheard, left, chunks, hu⟩ := h.understands
  obtain ⟨heard', unheard', left', chunks', hu'⟩ := h.swap.understands
  obtain ⟨haccepted, hverack⟩ := hu.verack h.near hok
  have hsome : heard ≠ [] := (hu.result h.near hok).1
  -- An acknowledgement was heard, so the far end has accepted what it heard, and will say no more.
  have hspoke : .verack ∈ b.speech (heard'.map .ok) := by
    have hreceived : p.far.exchange.received = heard'.map .ok := hu'.received
    rw [← hreceived, hu.speech]
    exact List.mem_append_left _ hverack
  obtain ⟨hsome', haccepted'⟩ := Party.accepted_of_verack hu'.speech hspoke
  have hall : unheard = [] := Party.eq_nil_of_verack hu.speech hverack
  have hsaid := h.near.follows.said
  rw [h.near.follows.ended _ hok, List.map_nil, List.append_nil] at hsaid
  have hanswers : answers a.config a.nonce p.near.exchange.received
      = replies a.config b.config.advertisedVersion := by
    rw [hu.received, Party.answers_accepted hu.speech hsome haccepted]
  have hleft : left = [] := by
    have hrest := hu.rest
    rw [hall] at hrest
    exact (List.append_eq_nil_iff.mp hrest.symm).1
  refine ⟨hu.peer h.near haccepted hsome, ?_, ?_, ?_, ?_⟩
  · rw [hsaid, Party.speech, hanswers]
  · rw [hsaid, mem_sendAddrV2 h.near.plain, hanswers, mem_replies]
  · have hunread := hu.carries.unread
    rw [hleft, List.flatten_nil, List.append_eq_nil_iff, List.append_eq_nil_iff] at hunread
    obtain ⟨⟨hheld, hchunks⟩, hcoming⟩ := hunread
    refine ⟨?_, hcoming⟩
    have hempty : ∀ chunk ∈ chunks, chunk = [] := List.flatten_eq_nil_iff.mp hchunks
    simp only [Link.unread, hheld, hu.carries.script, Script.tokens]
    simpa [StreamEvent.tokens] using hempty
  · exact ⟨hu'.hasVersion h.far haccepted' hsome', hu'.peer h.far haccepted' hsome'⟩

/-! ## Ends -/

theorem Stuck.swap (hs : p.Stuck) : p.swap.Stuck
  | .near move => congrArg Pair.swap (hs (.far move))
  | .far move => congrArg Pair.swap (hs (.near move))

theorem Stuck.arrived (hs : p.Stuck) : p.near.coming = [] := by
  have hsame : p.arrive 1 = p := hs (.near (.arrive 1))
  cases hcoming : p.near.coming with
  | nil => rfl
  | cons byte rest =>
      unfold Pair.arrive at hsame
      rw [hcoming] at hsame
      have hshorter := congrArg (List.length ·.near.coming) hsame
      simp [hcoming] at hshorter

/-- An end that is stuck without a result waits for something to come, and has taken all that came. -/
theorem Stuck.waits (hs : p.Stuck) (h : p.Attends magic a) (hopen : p.near.exchange.result = none) :
    p.near.exchange.handshake.outbox = [] ∧ p.near.exchange.handshake.stage ≠ .complete ∧
      ∀ got left chunks, Carries magic p.far.exchange.link.sent.toList p.near got left chunks →
        Frame.next? magic (p.near.exchange.link.reader.held ++ chunks.flatten) = none := by
  have hsame : p.near.exchange.step 0 = p.near.exchange :=
    congrArg (·.near.exchange) (hs (.near (.step 0)))
  have hstepped := Exchange.step_stepped h.follows.writes 0
  rw [← h.follows.magic]
  generalize p.near.exchange.step 0 = x' at hsame hstepped
  cases hstepped with
  | ended hended =>
      rw [hopen] at hended
      cases hended
  | writes m rest _ hnext =>
      have hshorter := congrArg (List.length ·.handshake.outbox) hsame
      simp [hnext] at hshorter
  | done =>
      rw [← hsame] at hopen
      cases hopen
  | receives link r =>
      have hlonger := congrArg (List.length ·.received) hsame
      simp at hlonger
  | waits link wake _ hout hstage hunready =>
      refine ⟨hout, hstage, fun got left chunks hc => ?_⟩
      have hread := Link.receive_open hc.part hc.script 0
      rw [hunready] at hread
      cases hread with
      | waits _ hnext => exact hnext

theorem Stuck.written (hs : p.Stuck) (h : p.Attends magic a) : p.near.exchange.handshake.outbox = [] := by
  cases hresult : p.near.exchange.result with
  | none => exact (hs.waits h hresult).1
  | some result => exact h.follows.ended result hresult

/-- An end that is stuck without a result has heard all that the other has to say to what it heard. -/
theorem Coupled.stuck_open (h : p.Coupled magic a b) (hs : p.Stuck) (hopen : p.near.exchange.result = none) :
    p.near.exchange.received = (b.speech p.far.exchange.received).map .ok ∧
      verdict a.nonce p.near.exchange.received = none := by
  obtain ⟨heard, unheard, left, chunks, hu⟩ := h.understands
  obtain ⟨-, hstage, hnext⟩ := hs.waits h.near hopen
  have hleft : left = [] := by
    by_contra hsome
    have hcomes := hu.carries.next?_isSome h.far.spoken hs.arrived hsome
    rw [hnext _ _ _ hu.carries] at hcomes
    cases hcomes
  have hout : p.far.exchange.handshake.outbox = [] := hs.swap.written h.far
  have hunheard := hu.rest
  rw [hleft, hout, List.map_nil, List.append_nil, List.map_eq_nil_iff] at hunheard
  refine ⟨?_, ?_⟩
  · rw [hu.received, hu.speech, hunheard, List.append_nil]
  · rw [← h.near.follows.judged.result]
    exact h.near.follows.unsettled hopen hstage

theorem Coupled.stuck_refused (h : p.Coupled magic a b) (hs : p.Stuck) {fault : ConnectionFault}
    (refused : a.refusal? b = some fault) : p.near.exchange.result = some (.error fault) := by
  cases hresult : p.near.exchange.result with
  | some result =>
      obtain ⟨heard, unheard, left, chunks, hu⟩ := h.understands
      rw [hu.refused h.near refused hresult]
  | none =>
      obtain ⟨hreceived, hverdict⟩ := h.stuck_open hs hresult
      have hall := (List.append_nil (b.speech p.far.exchange.received)).symm
      rw [hreceived, Party.verdict_refused hall (List.cons_ne_nil _ _) refused] at hverdict
      cases hverdict

/-- If neither refuses the other, an end that is stuck has succeeded: without a result it would have heard
    everything but an acknowledgement, so the far end would have heard nothing, not even the introduction. -/
theorem Coupled.stuck_accepted (h : p.Coupled magic a b) (hs : p.Stuck) (accepted : a.refusal? b = none)
    (accepted' : b.refusal? a = none) : p.near.exchange.result = some (.ok ()) := by
  obtain ⟨heard, unheard, left, chunks, hu⟩ := h.understands
  cases hresult : p.near.exchange.result with
  | some result =>
      obtain ⟨hsome, hverdict⟩ := hu.result h.near hresult
      rw [Party.verdict_accepted hu.speech hsome accepted] at hverdict
      split_ifs at hverdict
      exact hverdict.symm
  | none =>
      exfalso
      obtain ⟨hreceived, hverdict⟩ := h.stuck_open hs hresult
      have hall := (List.append_nil (b.speech p.far.exchange.received)).symm
      rw [hreceived, Party.verdict_accepted hall (List.cons_ne_nil _ _) accepted] at hverdict
      have hverack : .verack ∉ b.speech p.far.exchange.received := by
        intro hmem
        rw [if_pos hmem] at hverdict
        cases hverdict
      obtain ⟨heard', unheard', left', chunks', hu'⟩ := h.swap.understands
      have hfar : p.far.exchange.received = heard'.map .ok := hu'.received
      have hnone : heard' = [] := by
        by_contra hsome'
        obtain ⟨first, hreplies, -⟩ := replies_eq b.config a.config.advertisedVersion
        rw [Party.speech, hfar, Party.answers_accepted hu'.speech hsome' accepted', hreplies] at hverack
        exact hverack (by simp)
      have hopen : p.far.exchange.result = none := by
        cases hresult' : p.far.exchange.result with
        | none => rfl
        | some result' => exact absurd hnone (hu'.result h.far hresult').1
      obtain ⟨hreceived', -⟩ := h.swap.stuck_open hs.swap hopen
      rw [hnone] at hfar
      exact List.cons_ne_nil _ _ (List.map_eq_nil_iff.mp (hreceived'.symm.trans hfar))

/-- Nothing is behind all that was sent. -/
theorem flatten_drop_size (sent : Array Bytes) : (sent.toList.drop sent.size).flatten = [] := by
  rw [List.drop_of_length_le (Nat.le_of_eq Array.length_toList), List.flatten_nil]

/-- An end with a result takes no step. -/
theorem step_over (hended : p.near.exchange.result.isSome) (now : Nat) : p.step now = p := by
  have hsame := Exchange.step_of_ended hended now
  simp only [Pair.step, hsame, flatten_drop_size, List.append_nil]

theorem arrive_silent (silent : p.near.coming = []) (count : Nat) : p.arrive count = p := by
  simp only [Pair.arrive, silent, List.take_nil]

theorem Coupled.stuck_of_ok (h : p.Coupled magic a b) (hnear : p.near.exchange.result = some (.ok ()))
    (hfar : p.far.exchange.result = some (.ok ())) : p.Stuck
  | .near (.step now) => step_over (Option.isSome_of_eq_some hnear) now
  | .near (.arrive count) => arrive_silent (h.concluded hnear).silent.2 count
  | .far (.step now) => congrArg Pair.swap (step_over (p := p.swap) (Option.isSome_of_eq_some hfar) now)
  | .far (.arrive count) =>
      congrArg Pair.swap (arrive_silent (h.swap.concluded hfar).silent.2 count)

/-! ## Progress

Every event that changes anything brings the connection closer to its end. A written frame counts for more than
all that can be done with its bytes, a byte on the way for more than one that has arrived. -/

/-- More than three times the length of any frame. -/
def frameWeight : Nat := 3 * (Frame.headerSize + maxPayload) + 1

/-- What is ahead of one end: at most three messages to write and as many to receive, the bytes and chunks that
    are there for it, and a result. -/
def remaining (side : Side) : Nat :=
  frameWeight * (3 - side.exchange.link.sent.size) + 3 * side.coming.length
    + 2 * side.exchange.link.script.events.length + (3 - side.exchange.received.length)
    + if side.exchange.result.isSome then 0 else 1

/-- A bound on the events that can still change something. -/
def ahead (p : Pair) : Nat := remaining p.near + remaining p.far

theorem ahead_swap (p : Pair) : p.swap.ahead = p.ahead := Nat.add_comm _ _

theorem ahead_arrive (h : p.Attends magic a) (count : Nat) :
    p.arrive count = p ∨ (p.arrive count).ahead < p.ahead := by
  obtain ⟨got, left, chunks, hc⟩ := h.hears
  unfold Pair.arrive
  split
  · exact .inl rfl
  · rename_i byte bytes htake
    right
    have hcount := congrArg List.length htake
    rw [List.length_take, List.length_cons] at hcount
    simp only [ahead, remaining, Link.arrive, hc.length_events, List.length_append, List.length_dropLast,
      List.length_drop, List.length_cons, List.length_nil]
    omega

theorem Attends.sent_le (h : p.Attends magic a) : p.near.exchange.link.sent.size ≤ 3 := by
  have hsaid := congrArg List.length h.follows.said
  have hspeech := Party.length_speech a p.near.exchange.received
  simp only [List.length_append, List.length_map, Array.length_toList] at hsaid
  omega

theorem Coupled.received_le (h : p.Coupled magic a b) : p.near.exchange.received.length ≤ 3 := by
  obtain ⟨heard, unheard, left, chunks, hu⟩ := h.understands
  have hspeech := Party.length_speech b p.far.exchange.received
  rw [hu.speech, List.length_append] at hspeech
  rw [hu.received, List.length_map]
  omega

/-- A message that is written makes less of what is ahead, even with its frame on the way. -/
theorem frameWeight_mul {n : Nat} (hn : n + 1 ≤ 3) :
    frameWeight * (3 - n)
      = frameWeight * (3 - (n + 1)) + 3 * (Frame.headerSize + maxPayload) + 1 := by
  have hpred : 3 - n = 3 - (n + 1) + 1 := by omega
  rw [hpred, Nat.mul_add_one]
  rfl

theorem Coupled.ahead_step (h : p.Coupled magic a b) (now : Nat) :
    p.step now = p ∨ (p.step now).ahead < p.ahead := by
  obtain ⟨got, left, chunks, hc⟩ := h.near.hears
  have hnext := h.step now
  have hsize : (p.near.exchange.step now).link.sent.size ≤ 3 := hnext.near.sent_le
  have hreceived : (p.near.exchange.step now).received.length ≤ 3 := hnext.received_le
  have hspoken : Spoken magic (p.near.exchange.step now).link.sent.toList := hnext.near.spoken
  have hread := Link.receive_open hc.part hc.script now
  have hstepped := Exchange.step_stepped h.near.follows.writes now
  simp only [Pair.step]
  generalize p.near.exchange.step now = x' at hsize hreceived hspoken hstepped
  cases hstepped with
  | ended =>
      left
      rw [flatten_drop_size, List.append_nil]
  | writes m rest =>
      right
      rw [Link.send_written h.near.follows.writes] at hsize hspoken ⊢
      simp only [Array.toList_push, Array.size_push] at hsize hspoken ⊢
      obtain ⟨m', hplain, hframe⟩ := hspoken _ (List.mem_append_right _ (List.mem_singleton_self _))
      have hlength := hplain.length_encode magic
      rw [← hframe] at hlength
      rw [List.drop_left' Array.length_toList, List.flatten_singleton]
      simp only [ahead, remaining, Array.size_push, List.length_append, frameWeight_mul hsize]
      omega
  | done hopen =>
      right
      rw [flatten_drop_size, List.append_nil]
      simp only [ahead, remaining, hopen, Option.isSome_some, Option.isSome_none, if_true, if_false,
        Bool.false_eq_true]
      omega
  | receives link r hopen _ _ hready =>
      right
      rw [hready] at hread
      cases hread with
      | ready _ rest behind _ _ hfewer =>
          rw [flatten_drop_size, List.append_nil]
          simp only [List.length_append, List.length_singleton] at hreceived
          simp only [ahead, remaining, hopen, hc.length_events, List.length_append, List.length_map,
            List.length_singleton, Option.isSome_none, Bool.false_eq_true, if_false]
          split_ifs <;> omega
  | waits link wake hopen _ _ hunready =>
      cases chunks with
      | nil =>
          left
          rw [Link.receive_hold hc.script] at hunready
          cases hunready
          rw [flatten_drop_size, List.append_nil]
      | cons chunk chunks =>
          right
          rw [hunready] at hread
          cases hread with
          | waits reader =>
              rw [flatten_drop_size, List.append_nil]
              simp only [ahead, remaining, hc.length_events, List.length_cons, List.length_nil]
              omega

theorem Coupled.ahead_apply (h : p.Coupled magic a b) (event : Event) :
    p.apply event = p ∨ (p.apply event).ahead < p.ahead := by
  cases event with
  | near move =>
      cases move with
      | step now => exact h.ahead_step now
      | arrive count => exact ahead_arrive h.near count
  | far move =>
      show (p.swap.move move).swap = p ∨ (p.swap.move move).swap.ahead < p.ahead
      rw [ahead_swap, ← ahead_swap p]
      have hmove : p.swap.move move = p.swap ∨ (p.swap.move move).ahead < p.swap.ahead := by
        cases move with
        | step now => exact h.swap.ahead_step now
        | arrive count => exact ahead_arrive h.far count
      exact hmove.imp_left (congrArg Pair.swap)

/-- Whatever has happened so far, there is a way to go on until nothing is left to do. -/
theorem Coupled.exists_stuck (h : p.Coupled magic a b) : ∃ more, (p.run more).Stuck := by
  induction hahead : p.ahead using Nat.strong_induction_on generalizing p with
  | _ n ih =>
      by_cases hs : p.Stuck
      · exact ⟨[], hs⟩
      · obtain ⟨event, hevent⟩ := not_forall.mp hs
        have hless : (p.apply event).ahead < n := hahead ▸ (h.ahead_apply event).resolve_left hevent
        obtain ⟨more, hmore⟩ := ih _ hless (h.apply event) rfl
        exact ⟨event :: more, hmore⟩

/-! ## Agreement -/

/-- Both ends have this result. -/
def Ends (p : Pair) (result : Except ConnectionFault Unit) : Prop :=
  p.near.exchange.result = some result ∧ p.far.exchange.result = some result

/-- What holds of two handshakes with each other at every moment. -/
structure Agreement (magic : Magic) (a b : Party) (p : Pair) : Prop where
  /-- Without a reason to refuse the other on either side there is something left to do, up to the success of
      both and no longer. -/
  settles : a.nonce ≠ b.nonce → minProtocolVersion ≤ a.config.advertisedVersion →
    minProtocolVersion ≤ b.config.advertisedVersion → (p.Stuck ↔ p.Ends (.ok ()))
  /-- With the same nonce on both sides there is something left to do until both have failed for that reason. -/
  loops : a.nonce = b.nonce → p.Stuck → p.Ends (.error .selfDialed)
  /-- Nothing else comes of it. -/
  fails : a.nonce = b.nonce → ∀ result,
    p.near.exchange.result = some result ∨ p.far.exchange.result = some result → result = .error .selfDialed
  near : p.near.exchange.result = some (.ok ()) → p.Concluded magic a b
  far : p.far.exchange.result = some (.ok ()) → p.swap.Concluded magic b a
  /-- What changes anything is one of boundedly many events. -/
  progress : ∀ event, p.apply event = p ∨ (p.apply event).ahead < p.ahead
  /-- There is a way to where nothing is left to do. -/
  comes : ∃ more, (p.run more).Stuck

theorem Coupled.settles (h : p.Coupled magic a b) (hnonce : a.nonce ≠ b.nonce)
    (hnear : minProtocolVersion ≤ a.config.advertisedVersion)
    (hfar : minProtocolVersion ≤ b.config.advertisedVersion) : p.Stuck ↔ p.Ends (.ok ()) := by
  have haccepted : a.refusal? b = none := Party.accepts_iff.mp ⟨hnonce.symm, UInt32.not_lt.mpr hfar⟩
  have haccepted' : b.refusal? a = none := Party.accepts_iff.mp ⟨hnonce, UInt32.not_lt.mpr hnear⟩
  constructor
  · exact fun hs => ⟨h.stuck_accepted hs haccepted haccepted',
      h.swap.stuck_accepted hs.swap haccepted' haccepted⟩
  · exact fun hok => h.stuck_of_ok hok.1 hok.2

/-- **Two handshakes with each other agree.** -/
theorem handshakes_agree (magic : Magic) (a b : Party)
    (fitsNear : (Message.version a.introduction).encode.length ≤ maxPayload)
    (fitsFar : (Message.version b.introduction).encode.length ≤ maxPayload) (events : List Event) :
    Agreement magic a b ((start magic a b).run events) := by
  have h := (coupled_start magic a b ⟨trivial, fitsNear⟩ ⟨trivial, fitsFar⟩).run events
  have hloop : ∀ {c d : Party}, c.nonce = d.nonce → c.refusal? d = some .selfDialed :=
    fun hnonce => if_pos hnonce.symm
  constructor
  case settles => exact h.settles
  case loops =>
    exact fun hnonce hs => ⟨h.stuck_refused hs (hloop hnonce),
      h.swap.stuck_refused hs.swap (hloop hnonce.symm)⟩
  case fails =>
    rintro hnonce result (hresult | hresult)
    · obtain ⟨heard, unheard, left, chunks, hu⟩ := h.understands
      exact hu.refused h.near (hloop hnonce) hresult
    · obtain ⟨heard, unheard, left, chunks, hu⟩ := h.swap.understands
      exact hu.refused h.far (hloop hnonce.symm) hresult
  case near => exact h.concluded
  case far => exact h.swap.concluded
  case progress => exact h.ahead_apply
  case comes => exact h.exists_stuck

/-- A party that is as it is by default. -/
def plainParty (nonce : UInt64) : Party where
  config := {}
  peer := { endpoint := .of (.v4 ⟨10, 0, 0, 1⟩) 8333 }
  nonce := nonce
  time := 0

/-- Two of them, the first of which has spoken, and has been heard in part. -/
theorem plain_parties_agree :
    (Message.version (plainParty 1).introduction).encode.length ≤ maxPayload ∧
      (Message.version (plainParty 2).introduction).encode.length ≤ maxPayload ∧
      Agreement (Chain.magic .bitcoin) (plainParty 1) (plainParty 2)
        ((start (Chain.magic .bitcoin) (plainParty 1) (plainParty 2)).run
          [.near (.step 0), .far (.arrive 10), .far (.step 0)]) := by
  have fitsNear : (Message.version (plainParty 1).introduction).encode.length ≤ maxPayload := by decide
  have fitsFar : (Message.version (plainParty 2).introduction).encode.length ≤ maxPayload := by decide
  exact ⟨fitsNear, fitsFar, handshakes_agree (Chain.magic .bitcoin) _ _ fitsNear fitsFar _⟩

end Pair

end BitcoinCrawl
