import BitcoinCrawl.Proofs.Crawl.Commuting

set_option autoImplicit false

/-! # What a session can touch

Whatever a peer says, its session changes nothing in the registry but the keepalive of that peer's own node, at
most once, and the end of the discovery queue, where new endpoints come in the order in which the peer first
announced them. -/

namespace BitcoinCrawl

/-! ## The keepalive of one node -/

namespace Node

/-- At most one pong is a match, and it uses up the nonce of the ping that is out. -/
theorem hearAll_keepalive (said : List Message) (n : Node) :
    (n.hearAll said).1 = n ∨
      n.pingNonce ≠ 0 ∧ (n.hearAll said).1 = { n with pingNonce := 0, pingCount := n.pingCount + 1 } := by
  induction said generalizing n with
  | nil => exact .inl rfl
  | cons m rest ih =>
      have hrest : (n.hearAll (m :: rest)).1 = ((n.hear (.ofMessage m)).1.hearAll rest).1 := rfl
      have hsame : (n.hear (.ofMessage m)).1 = n ∨ n.pingNonce ≠ 0 ∧
          (n.hear (.ofMessage m)).1 = { n with pingNonce := 0, pingCount := n.pingCount + 1 } := by
        cases Notice.ofMessage m with
        | pong nonce =>
            simp only [hear, recordPong]
            split_ifs with hnone hmatch
            · exact .inl rfl
            · exact .inr ⟨hnone, rfl⟩
            · exact .inl rfl
        | _ => exact .inl rfl
      rw [hrest]
      rcases hsame with hsame | ⟨hout, hmatched⟩
      · rw [hsame]
        exact ih n
      · -- No ping is out any more, so nothing else can match.
        rw [hmatched]
        rcases ih { n with pingNonce := 0, pingCount := n.pingCount + 1 } with hkept | ⟨hout', -⟩
        · exact .inr ⟨hout, hkept⟩
        · exact absurd rfl hout'

end Node

/-! ## New endpoints -/

namespace Registry

variable {r : Registry} {e : Endpoint}

theorem hear_known (notice : Notice) (he : (r.node? e).isSome = true) :
    (r.hear e notice).1.known.toList = r.known.toList ++ r.unknownIn notice.announced := by
  obtain ⟨n, hn⟩ := Option.isSome_iff_exists.mp he
  cases notice with
  | addr es | addrV2 es => exact (add_unknownIn es r).1
  | pong nonce =>
      rw [hear_pong nonce hn]
      exact (List.append_nil _).symm
  | _ => exact (List.append_nil _).symm

theorem node?_hear_eq_none (notice : Notice) (he : (r.node? e).isSome = true) (e' : Endpoint) :
    (r.hear e notice).1.node? e' = none ↔ r.node? e' = none ∧ e' ∉ notice.announced := by
  obtain ⟨n, hn⟩ := Option.isSome_iff_exists.mp he
  rw [node?_hear notice hn]
  cases r.node? e' <;> simp

end Registry

/-! ## The messages of one session -/

/-- One session says everything. -/
def sayings (e : Endpoint) (said : List Message) : List (Endpoint × Message) := said.map fun m => (e, m)

theorem map_snd_sayings (e : Endpoint) (said : List Message) : (sayings e said).map Prod.snd = said := by
  rw [sayings, List.map_map]
  exact List.map_id said

theorem heardFrom_sayings (e e' : Endpoint) (said : List Message) :
    heardFrom e' (sayings e said) = if e = e' then said else [] := by
  rw [heardFrom, sayings, List.flatMap_map]
  split
  next => exact List.flatMap_singleton' said
  next => exact List.flatMap_eq_nil_iff.mpr fun _ _ => rfl

/-- The registry that hears messages from the peer of one node. -/
def Registry.hearAll (e : Endpoint) (said : List Message) (r : Registry) : Registry :=
  said.foldl (fun r m => (r.hear e (.ofMessage m)).1) r

theorem Shared.attendAll_registry (e : Endpoint) (said : List Message) (s : Shared) :
    (s.attendAll (sayings e said)).1.registry = s.registry.hearAll e said := by
  induction said generalizing s with
  | nil => rfl
  | cons m rest ih =>
      have hrest := ih (s.attend e m).1
      rw [s.attend_registry] at hrest
      exact hrest

/-- New endpoints are known in the order in which a session first announces them. -/
theorem Registry.hearAll_known {e : Endpoint} (said : List Message) (r : Registry)
    (he : (r.node? e).isSome = true) :
    (r.hearAll e said).known.toList = r.known.toList ++ r.unknownIn (announcements said) := by
  induction said generalizing r with
  | nil => exact (List.append_nil _).symm
  | cons m rest ih =>
      have hunknown := r.node?_hear_eq_none (.ofMessage m) he
      have hknown : ((r.hear e (.ofMessage m)).1.node? e).isSome = true := by
        rw [Option.isSome_iff_ne_none, ne_eq, hunknown]
        exact fun h => Option.isSome_iff_ne_none.mp he h.1
      calc (r.hearAll e (m :: rest)).known.toList
          = ((r.hear e (.ofMessage m)).1.hearAll e rest).known.toList := rfl
        _ = (r.hear e (.ofMessage m)).1.known.toList ++
              (r.hear e (.ofMessage m)).1.unknownIn (announcements rest) := ih _ hknown
        _ = r.known.toList ++ r.unknownIn (Notice.ofMessage m).announced ++
              (r.hear e (.ofMessage m)).1.unknownIn (announcements rest) := by rw [r.hear_known _ he]
        _ = r.known.toList ++ r.unknownIn (announcements (m :: rest)) := by
            rw [List.append_assoc, ← Registry.unknownIn_append _ hunknown]
            rfl

/-- How a registry may differ after a session with the peer of a node has handled some messages. -/
structure Confined (e : Endpoint) (said : List Message) (r r' : Registry) : Prop where
  /-- No other node changes at all. -/
  others : ∀ e' n, e' ≠ e → r.node? e' = some n → r'.node? e' = some n
  /-- The node of the peer stays as it is, or the ping that is out is counted as answered. -/
  keepalive : ∀ n, r.node? e = some n → r'.node? e = some n ∨
    n.pingNonce ≠ 0 ∧ r'.node? e = some { n with pingNonce := 0, pingCount := n.pingCount + 1 }
  good : r'.good = r.good
  dead : r'.dead = r.dead
  queued : r'.queued = r.queued
  connecting : r'.connecting = r.connecting
  /-- A new node was announced, has been discovered, and is blank apart from that. -/
  new : ∀ e', r.node? e' = none →
    r'.node? e' = if e' ∈ announcements said then some { endpoint := e', state := .discovered } else none
  /-- New endpoints wait behind the others, each once, in the order in which they were first announced. -/
  queue : r'.discoveryQueue = r.discoveryQueue ++ r.unknownIn (announcements said)

/-- **A session touches only its own keepalive and the discovery frontier.** Whatever messages the peer of a known
    node sends, and however many, all other nodes stay exactly as they are, and so do the state and the peer of its
    own, the good list and the counters. At most one pong counts, and it uses up the nonce. What is new are the
    announced endpoints that were not known, each once, as blank discovered nodes behind the discovery queue, in the
    order in which they were first announced. -/
theorem session_confined (e : Endpoint) (said : List Message) (s : Shared) (hc : s.registry.Consistent)
    (he : (s.registry.node? e).isSome = true) :
    Confined e said s.registry (s.attendAll (sayings e said)).1.registry := by
  have hattended := s.attendAll_attended (sayings e said) hc (by
    intro heard hheard
    obtain ⟨m, -, rfl⟩ := List.mem_map.mp hheard
    exact he)
  have hnode := hattended.node
  simp only [map_snd_sayings, heardFrom_sayings] at hnode
  constructor
  case others =>
    intro e' n hne hn
    rw [hnode, hn, if_neg (Ne.symm hne)]
    rfl
  case keepalive =>
    intro n hn
    rw [hnode, hn, if_pos rfl]
    rcases n.hearAll_keepalive said with hkept | ⟨hout, hanswered⟩
    · exact .inl (congrArg some hkept)
    · exact .inr ⟨hout, congrArg some hanswered⟩
  case good => exact hattended.tallies.good
  case dead => exact hattended.tallies.dead
  case queued => exact hattended.tallies.queued
  case connecting => exact hattended.tallies.connecting
  case new =>
    intro e' hunknown
    have hne : e ≠ e' := by
      rintro rfl
      rw [hunknown] at he
      cases he
    rw [hnode, hunknown, if_neg hne]
    split <;> rfl
  case queue =>
    refine hattended.tallies.discoveryQueue hc ?_
    rw [s.attendAll_registry]
    exact Registry.hearAll_known said s.registry he

/-- A peer that repeats its pong and its announcement, and announces itself in between. -/
theorem repetitions_confined :
    Confined firstPeer [.pong 7, .pong 7, rumour, .addrV2 [⟨0, ⟨1⟩, .ipv4 ⟨10, 0, 0, 1⟩, 8333⟩], rumour]
      (Registry.performAll {} twoSessions)
      (Shared.attendAll
        (sayings firstPeer
          [.pong 7, .pong 7, rumour, .addrV2 [⟨0, ⟨1⟩, .ipv4 ⟨10, 0, 0, 1⟩, 8333⟩], rumour])
        { host := default, registry := Registry.performAll {} twoSessions }).1.registry := by
  refine session_confined firstPeer _ { host := default, registry := Registry.performAll {} twoSessions }
    (Registry.consistent_empty.performAll twoSessions) ?_
  have hadded : (Registry.add [firstPeer, secondPeer] {}).1.node? firstPeer = some { endpoint := firstPeer } := by
    rw [Registry.node?_add, if_pos List.mem_cons_self]
    simp [Registry.node?]
  -- Whoever is known stays known.
  obtain ⟨n, hn, -⟩ := (Registry.consistent_empty.add _).performAll_continued (twoSessions.drop 1) hadded
  exact Option.isSome_iff_exists.mpr ⟨n, hn⟩

end BitcoinCrawl
