import BitcoinCrawl.Proofs.Crawl.Network
import BitcoinCrawl.Proofs.Registry.History
import Mathlib.Algebra.Ring.Nat

set_option autoImplicit false

/-! # Sessions commute

Sessions with different peers handle their messages one at a time, in an order that nobody chooses. The main
theorem (`sessions_commute`) says that the order does not matter, except for where new endpoints stand in the
discovery queue. The reason is that each node hears from its own peer only, and that an endpoint is new once,
whoever announces it first: what any order leaves can be said without the order (`Attended`). -/

namespace BitcoinCrawl

/-! ## Answers of the registry -/

/-- What the registry answers to the call that a notice leads to. -/
inductive Reply where
  | added (count : Nat)
  | pong (outcome : PongOutcome)
  | refused (fault : RegistryFault)
  /-- The registry was not called. -/
  | silent
  deriving DecidableEq

namespace Reply

/-- How many endpoints were new. -/
def count : Reply → Nat
  | added count => count
  | _ => 0

/-- What a pong turned out to be. -/
def outcome? : Reply → Option PongOutcome
  | pong outcome => some outcome
  | _ => none

end Reply

/-- How many endpoints were new in all. -/
def addedIn (replies : List (Endpoint × Reply)) : Nat := (replies.map fun reply => reply.2.count).sum

/-- What the pongs of one session turned out to be. -/
def pongsOf (e : Endpoint) (replies : List (Endpoint × Reply)) : List PongOutcome :=
  replies.flatMap fun reply => if reply.1 = e then reply.2.outcome?.toList else []

/-- The call that a notice from the node behind an endpoint leads to. -/
def Registry.hear (e : Endpoint) (notice : Notice) (r : Registry) : Registry × Reply :=
  match notice with
  | .addr es | .addrV2 es => ((r.add es).1, .added (r.add es).2)
  | .pong nonce =>
    match r.recordPong e nonce with
    | .ok (r, outcome) => (r, .pong outcome)
    | .error fault => (r, .refused fault)
  | _ => (r, .silent)

namespace Shared

/-- A session does to the registry what its notice calls for, and signals what is new. -/
theorem handle_hear (e : Endpoint) (notice : Notice) (s : Shared) :
    (s.handle e notice).1.registry = (s.registry.hear e notice).1 ∧
      ((s.handle e notice).2 = true ↔ 0 < (s.registry.hear e notice).2.count) := by
  cases notice with
  | addr | addrV2 => exact ⟨rfl, decide_eq_true_iff⟩
  | pong nonce =>
      simp only [handle, handlePong, Registry.hear]
      cases s.registry.recordPong e nonce <;> exact ⟨rfl, nofun, nofun⟩
  | _ => exact ⟨rfl, nofun, nofun⟩

/-- What a session reports of a notice is decided by the answer of the registry. -/
theorem handle_report {e : Endpoint} {notice : Notice} {s s' : Shared}
    (h : (s.registry.hear e notice).2 = (s'.registry.hear e notice).2) :
    ∃ line, (s.handle e notice).1.log = s.log.push line ∧ (s'.handle e notice).1.log = s'.log.push line := by
  cases notice with
  | addr es | addrV2 es =>
      have hcount : (s.registry.add es).2 = (s'.registry.add es).2 := Reply.added.inj h
      refine ⟨.info s!"{e} announced {es.length} addresses, {(s.registry.add es).2} new", rfl, ?_⟩
      rw [hcount]
      rfl
  | pong nonce =>
      simp only [Registry.hear] at h
      simp only [handle, handlePong]
      rcases hs : s.registry.recordPong e nonce with fault | ⟨r, outcome⟩ <;>
        rcases hs' : s'.registry.recordPong e nonce with fault' | ⟨r', outcome'⟩ <;>
        rw [hs, hs'] at h <;> cases h <;> exact ⟨_, rfl, rfl⟩
  | _ => exact ⟨_, rfl, rfl⟩

/-- Handle a message of the session with the node behind an endpoint to the end. -/
def attend (e : Endpoint) (m : Message) (s : Shared) : Shared × Reply :=
  let (after, due) := s.handle e (.ofMessage m)
  (if due then after.signal else after, (s.registry.hear e (.ofMessage m)).2)

/-- Handle messages of several sessions in the given order. -/
def attendAll : List (Endpoint × Message) → Shared → Shared × List (Endpoint × Reply)
  | [], s => (s, [])
  | (e, m) :: rest, s =>
    let (s, reply) := s.attend e m
    let (s, replies) := s.attendAll rest
    (s, (e, reply) :: replies)

theorem attend_registry (e : Endpoint) (m : Message) (s : Shared) :
    (s.attend e m).1.registry = (s.registry.hear e (.ofMessage m)).1 := by
  rw [← (s.handle_hear e (.ofMessage m)).1]
  simp only [attend]
  split <;> rfl

end Shared

/-- A session that has a message to handle attends to it in one step, or in two if a signal is due. -/
theorem Session.step_attend {session : Session} {m : Message} (idle : Option Millis) (s : Shared)
    (hphase : session.phase = .handling (.ofMessage m)) :
    (session.step idle s).2.1 = (s.attend session.endpoint m).1 ∨
      (session.step idle s).1.phase = .signalling ∧
        ((session.step idle s).1.step idle (session.step idle s).2.1).2.1
          = (s.attend session.endpoint m).1 := by
  simp only [step, hphase, Shared.attend]
  cases s.handle session.endpoint (.ofMessage m) with
  | mk after due =>
      cases due with
      | true => exact .inr ⟨rfl, rfl⟩
      | false => exact .inl rfl

/-! ## Orders -/

/-- An order in which messages of several sessions are handled. Each session keeps its own order. -/
inductive Interleaving : List (Endpoint × List Message) → List (Endpoint × Message) → Prop
  | done (sessions : List (Endpoint × List Message)) (h : ∀ session ∈ sessions, session.2 = []) :
      Interleaving sessions []
  | next (before after : List (Endpoint × List Message)) (e : Endpoint) (m : Message)
      (rest : List Message) (order : List (Endpoint × Message))
      (h : Interleaving (before ++ (e, rest) :: after) order) :
      Interleaving (before ++ (e, m :: rest) :: after) ((e, m) :: order)

/-- The messages of one session, in their order. -/
def heardFrom (e : Endpoint) (order : List (Endpoint × Message)) : List Message :=
  order.flatMap fun heard => if heard.1 = e then [heard.2] else []

namespace Interleaving

variable {sessions : List (Endpoint × List Message)} {order : List (Endpoint × Message)}

/-- Messages come from sessions. -/
theorem speaker (h : Interleaving sessions order) : ∀ heard ∈ order, ∃ said, (heard.1, said) ∈ sessions := by
  induction h with
  | done => simp
  | next before after e m rest order h ih =>
      intro heard hmem
      rcases List.mem_cons.mp hmem with rfl | hmem
      · exact ⟨_, List.mem_append_right _ List.mem_cons_self⟩
      · obtain ⟨said, hsaid⟩ := ih heard hmem
        rcases List.mem_append.mp hsaid with hbefore | hat
        · exact ⟨said, List.mem_append_left _ hbefore⟩
        · rcases List.mem_cons.mp hat with heq | hafter
          · rw [(Prod.mk.inj heq).1]
            exact ⟨_, List.mem_append_right _ List.mem_cons_self⟩
          · exact ⟨said, List.mem_append_right _ (List.mem_cons_of_mem _ hafter)⟩

/-- All messages of a session are handled, in its own order. -/
theorem heardFrom_eq (h : Interleaving sessions order) (distinct : (sessions.map Prod.fst).Nodup) :
    ∀ e said, (e, said) ∈ sessions → heardFrom e order = said := by
  induction h with
  | done sessions hdone => exact fun e said hmem => (hdone _ hmem).symm
  | next before after e m rest order h ih =>
      have hsame : (before ++ (e, rest) :: after).map Prod.fst = (before ++ (e, m :: rest) :: after).map Prod.fst := by
        simp
      have ih := ih (hsame ▸ distinct)
      intro e' said hmem
      -- No other session has the endpoint of the one that speaks first.
      have hothers : e ∉ before.map Prod.fst ∧ e ∉ after.map Prod.fst := by
        rw [List.map_append, List.map_cons, List.nodup_middle, List.nodup_cons, List.mem_append,
          not_or] at distinct
        exact distinct.1
      have hother : ∀ said, (e, said) ∈ before ∨ (e, said) ∈ after → False := by
        rintro said (hbefore | hafter)
        · exact hothers.1 (List.mem_map_of_mem hbefore)
        · exact hothers.2 (List.mem_map_of_mem hafter)
      by_cases he : e = e'
      · subst he
        rw [List.mem_append, List.mem_cons] at hmem
        rcases hmem with hbefore | heq | hafter
        · exact (hother said (.inl hbefore)).elim
        · rw [(Prod.mk.inj heq).2, ← ih e rest (by simp)]
          simp [heardFrom]
        · exact (hother said (.inr hafter)).elim
      · rw [← ih e' said (by simpa [Ne.symm he] using hmem)]
        simp [heardFrom, he]

/-- So in all orders every node hears the same. -/
theorem heardFrom_congr {order' : List (Endpoint × Message)} (h : Interleaving sessions order)
    (h' : Interleaving sessions order') (distinct : (sessions.map Prod.fst).Nodup) (e : Endpoint) :
    heardFrom e order = heardFrom e order' := by
  by_cases hsession : ∃ said, (e, said) ∈ sessions
  · obtain ⟨said, hsaid⟩ := hsession
    rw [h.heardFrom_eq distinct e said hsaid, h'.heardFrom_eq distinct e said hsaid]
  · have hsilent : ∀ {order}, Interleaving sessions order → heardFrom e order = [] := by
      intro order h
      refine List.flatMap_eq_nil_iff.mpr fun heard hheard => if_neg ?_
      rintro rfl
      exact hsession (h.speaker heard hheard)
    rw [hsilent h, hsilent h']

/-- Nothing is handled that no session has heard, and nothing is left out. -/
theorem mem_iff (h : Interleaving sessions order) (m : Message) :
    m ∈ order.map Prod.snd ↔ m ∈ sessions.flatMap Prod.snd := by
  induction h with
  | done sessions hdone =>
      have hnone : sessions.flatMap Prod.snd = [] := List.flatMap_eq_nil_iff.mpr hdone
      simp [hnone]
  | next before after e m' rest order h ih =>
      simp only [List.map_cons, List.mem_cons, ih, List.flatMap_append, List.flatMap_cons, List.mem_append]
      tauto

end Interleaving

/-! ## What one node hears -/

namespace Node

/-- What a notice from its peer makes of a node, and what a pong turned out to be. -/
def hear (notice : Notice) (n : Node) : Node × Option PongOutcome :=
  match notice with
  | .pong nonce => ((n.recordPong nonce).1, some (n.recordPong nonce).2)
  | _ => (n, none)

/-- What messages from its peer make of a node, and what the pongs turned out to be. -/
def hearAll : List Message → Node → Node × List PongOutcome
  | [], n => (n, [])
  | m :: rest, n =>
    let (n, outcome) := n.hear (.ofMessage m)
    let (n, outcomes) := n.hearAll rest
    (n, outcome.toList ++ outcomes)

end Node

/-! ## What an order leaves -/

namespace Registry

/-- What no session touches. -/
structure SameTallies (r r' : Registry) : Prop where
  taken : r'.taken = r.taken
  good : r'.good = r.good
  queued : r'.queued = r.queued
  connecting : r'.connecting = r.connecting
  dead : r'.dead = r.dead

theorem SameTallies.refl (r : Registry) : SameTallies r r := ⟨rfl, rfl, rfl, rfl, rfl⟩

theorem SameTallies.trans {r₁ r₂ r₃ : Registry} (h : SameTallies r₁ r₂) (h' : SameTallies r₂ r₃) :
    SameTallies r₁ r₃ :=
  ⟨h'.taken.trans h.taken, h'.good.trans h.good, h'.queued.trans h.queued, h'.connecting.trans h.connecting,
    h'.dead.trans h.dead⟩

/-- New endpoints stand behind the discovery queue. -/
theorem SameTallies.discoveryQueue {r r' : Registry} (h : SameTallies r r') (hc : r.Consistent)
    {fresh : List Endpoint} (hknown : r'.known.toList = r.known.toList ++ fresh) :
    r'.discoveryQueue = r.discoveryQueue ++ fresh := by
  rw [Registry.discoveryQueue, h.taken, hknown]
  exact List.drop_append_of_le_length (by simpa using hc.taken_le)

theorem sameTallies_addOne (r : Registry) (k : Nat) (e : Endpoint) : SameTallies r (addOne (r, k) e).1 := by
  cases h : r.node? e with
  | some n =>
      rw [addOne_of_known k (by simp [h])]
      exact .refl r
  | none =>
      rw [addOne_of_new k h]
      exact ⟨rfl, rfl, rfl, rfl, rfl⟩

theorem sameTallies_add (r : Registry) (es : List Endpoint) : SameTallies r (r.add es).1 := by
  -- The fold also counts what is new, so the induction is for any registry with any count.
  have hfold : ∀ (es : List Endpoint) (acc : Registry × Nat), SameTallies acc.1 (es.foldl addOne acc).1 := by
    intro es
    induction es with
    | nil => exact fun acc => .refl acc.1
    | cons e rest ih => exact fun acc => (sameTallies_addOne acc.1 acc.2 e).trans (ih (addOne acc e))
  exact hfold es (r, 0)

variable {r : Registry} {e : Endpoint} {n : Node}

theorem hear_pong (nonce : UInt64) (hn : r.node? e = some n) :
    r.hear e (.pong nonce) = (r.put e (n.recordPong nonce).1, .pong (n.recordPong nonce).2) := by
  simp only [hear, recordPong_eq_ok.mpr ⟨n, hn, rfl⟩]

/-- What a notice makes of every node: new ones come up, and one node hears from its peer. -/
theorem node?_hear (notice : Notice) (hn : r.node? e = some n) (e' : Endpoint) :
    (r.hear e notice).1.node? e'
      = ((r.node? e').or (if e' ∈ notice.announced then some { endpoint := e' } else none)).map
          fun n => if e = e' then (n.hear notice).1 else n := by
  cases notice with
  | addr es | addrV2 es =>
      show (r.add es).1.node? e' = _
      by_cases hmem : e' ∈ es <;> simp [node?_add, Notice.announced, Node.hear, hmem]
  | pong nonce =>
      rw [hear_pong nonce hn, node?_put]
      by_cases he : e = e'
      · subst he
        simp [hn, Node.hear]
      · simp [he, Notice.announced]
  | _ => simp [hear, Node.hear, Notice.announced]

theorem outcome?_hear (notice : Notice) (hn : r.node? e = some n) :
    (r.hear e notice).2.outcome? = (n.hear notice).2 := by
  cases notice with
  | pong nonce =>
      rw [hear_pong nonce hn]
      rfl
  | _ => rfl

/-- A known node is not refused. -/
theorem hear_ne_refused (notice : Notice) (hn : r.node? e = some n) (fault : RegistryFault) :
    (r.hear e notice).2 ≠ .refused fault := by
  cases notice with
  | pong nonce =>
      rw [hear_pong nonce hn]
      exact nofun
  | _ => exact nofun

theorem sameTallies_hear (notice : Notice) (hn : r.node? e = some n) :
    SameTallies r (r.hear e notice).1 := by
  cases notice with
  | addr es | addrV2 es => exact sameTallies_add r es
  | pong nonce =>
      rw [hear_pong nonce hn]
      exact ⟨rfl, rfl, rfl, rfl, rfl⟩
  | _ => exact .refl r

/-- As many endpoints as are counted stand behind the others. -/
theorem Consistent.hear_known (hc : r.Consistent) (notice : Notice) (hn : r.node? e = some n) :
    ∃ fresh, (r.hear e notice).1.known.toList = r.known.toList ++ fresh ∧
      (r.hear e notice).2.count = fresh.length := by
  cases notice with
  | addr es | addrV2 es =>
      obtain ⟨fresh, hcount, hgrown⟩ := hc.add_grown es
      exact ⟨fresh, hgrown.known, hcount⟩
  | pong nonce =>
      rw [hear_pong nonce hn]
      exact ⟨[], (List.append_nil _).symm, rfl⟩
  | _ => exact ⟨[], (List.append_nil _).symm, rfl⟩

theorem Consistent.hear (hc : r.Consistent) (notice : Notice) (hn : r.node? e = some n) :
    (r.hear e notice).1.Consistent := by
  cases notice with
  | addr es | addrV2 es => exact hc.add es
  | pong nonce =>
      rw [hear_pong nonce hn]
      exact hc.recordPong (recordPong_fst_eq_ok.mpr ⟨n, hn, rfl⟩)
  | _ => exact hc

end Registry

/-- What messages in some order, from peers of known nodes, make of a registry, and what it answers. -/
structure Attended (order : List (Endpoint × Message)) (r r' : Registry) (replies : List (Endpoint × Reply)) :
    Prop where
  consistent : r'.Consistent
  /-- Every node hears from its own peer, and what is announced and not known becomes a node. -/
  node : ∀ e, r'.node? e
    = ((r.node? e).or (if e ∈ announcements (order.map Prod.snd) then some { endpoint := e } else none)).map
        fun n => (n.hearAll (heardFrom e order)).1
  known : ∃ fresh, r'.known.toList = r.known.toList ++ fresh ∧ addedIn replies = fresh.length
  tallies : r.SameTallies r'
  pongs : ∀ e n, r.node? e = some n → pongsOf e replies = (n.hearAll (heardFrom e order)).2
  accepted : ∀ reply ∈ replies, ∀ fault, reply.2 ≠ .refused fault

/-- One more message in front. -/
theorem Attended.cons {order : List (Endpoint × Message)} {r r' : Registry} {e : Endpoint} {m : Message}
    {replies : List (Endpoint × Reply)} (hc : r.Consistent) (he : (r.node? e).isSome = true)
    (h : Attended order (r.hear e (.ofMessage m)).1 r' replies) :
    Attended ((e, m) :: order) r r' ((e, (r.hear e (.ofMessage m)).2) :: replies) := by
  obtain ⟨n, hn⟩ := Option.isSome_iff_exists.mp he
  have hhears := Registry.node?_hear (.ofMessage m) hn
  have hannounced : announcements (m :: order.map Prod.snd)
      = (Notice.ofMessage m).announced ++ announcements (order.map Prod.snd) := rfl
  refine ⟨h.consistent, fun e' => ?node, ?known, (Registry.sameTallies_hear _ hn).trans h.tallies,
    fun e' n' hn' => ?pongs, fun reply hreply => ?accepted⟩
  case node =>
    rw [h.node, hhears, List.map_cons, hannounced]
    cases hnode : r.node? e' with
    | some n' =>
        by_cases heq : e = e'
        · simp [heardFrom, heq, Node.hearAll]
        · simp [heardFrom, heq]
    | none =>
        -- The sender is known, so a new node hears nothing yet.
        have hne : e ≠ e' := fun heq => by simp [heq, hnode] at hn
        by_cases hnew : e' ∈ (Notice.ofMessage m).announced <;> simp [heardFrom, hne, hnew]
  case known =>
    obtain ⟨first, hfirst, hcount⟩ := hc.hear_known (.ofMessage m) hn
    obtain ⟨more, hmore, hcounts⟩ := h.known
    refine ⟨first ++ more, ?_, ?_⟩
    · rw [hmore, hfirst, List.append_assoc]
    · rw [List.length_append, ← hcount, ← hcounts]
      rfl
  case pongs =>
    have hrest := h.pongs e' (if e = e' then (n'.hear (.ofMessage m)).1 else n') (by simp [hhears, hn'])
    rw [pongsOf, List.flatMap_cons, ← pongsOf, hrest]
    by_cases heq : e = e'
    · subst heq
      simp [Registry.outcome?_hear _ hn', heardFrom, Node.hearAll]
    · simp [heardFrom, heq]
  case accepted =>
    rcases List.mem_cons.mp hreply with rfl | hreply
    · exact Registry.hear_ne_refused _ hn
    · exact h.accepted reply hreply

/-- What handling messages leaves, by induction on the order. -/
theorem Shared.attendAll_attended (order : List (Endpoint × Message)) (s : Shared) (hc : s.registry.Consistent)
    (known : ∀ heard ∈ order, (s.registry.node? heard.1).isSome = true) :
    Attended order s.registry (s.attendAll order).1.registry (s.attendAll order).2 := by
  induction order generalizing s with
  | nil =>
      refine ⟨hc, fun e => ?_, ⟨[], (List.append_nil _).symm, rfl⟩, .refl _, fun _ _ _ => rfl, nofun⟩
      show s.registry.node? e = ((s.registry.node? e).or none).map id
      simp
  | cons heard rest ih =>
      obtain ⟨e, m⟩ := heard
      have he := known _ List.mem_cons_self
      obtain ⟨n, hn⟩ := Option.isSome_iff_exists.mp he
      have hregistry := s.attend_registry e m
      refine .cons hc he ?_
      rw [← hregistry]
      refine ih _ (hregistry ▸ hc.hear _ hn) fun heard hheard => ?_
      rw [hregistry, Registry.node?_hear _ hn]
      have hknown := known heard (List.mem_cons_of_mem _ hheard)
      obtain ⟨n', hn'⟩ := Option.isSome_iff_exists.mp hknown
      simp [hn']

/-! ## Two orders -/

/-- The endpoints that some messages announce and a registry does not know, each once. -/
def Registry.newIn (r : Registry) (said : List Message) : List Endpoint :=
  ((announcements said).filter fun e => (r.node? e).isNone).dedup

variable {sessions : List (Endpoint × List Message)} {order order' : List (Endpoint × Message)}
variable {r r' : Registry} {replies : List (Endpoint × Reply)}

/-- The order decides only how the new endpoints are arranged. -/
theorem Attended.fresh (h : Attended order r r' replies) (hc : r.Consistent)
    (horder : Interleaving sessions order) :
    ∃ fresh, r'.known.toList = r.known.toList ++ fresh ∧ addedIn replies = fresh.length ∧
      fresh.Perm (r.newIn (sessions.flatMap Prod.snd)) := by
  obtain ⟨fresh, hknown, hadded⟩ := h.known
  refine ⟨fresh, hknown, hadded, ?_⟩
  have hnodup : (r.known.toList ++ fresh).Nodup := hknown ▸ h.consistent.known_nodup
  have hsame : ∀ e, e ∈ announcements (order.map Prod.snd) ↔ e ∈ announcements (sessions.flatMap Prod.snd) := by
    intro e
    simp only [announcements, List.mem_flatMap, horder.mem_iff]
  rw [Registry.newIn, List.perm_ext_iff_of_nodup (List.nodup_append.mp hnodup).2.1 (List.nodup_dedup _)]
  intro e
  have hmem := h.consistent.mem_known e
  rw [hknown, List.mem_append, hc.mem_known, h.node] at hmem
  simp only [List.mem_dedup, List.mem_filter, ← hsame, Option.isNone_iff_eq_none]
  constructor
  · intro hfresh
    have hunknown : r.node? e = none := by
      by_contra hsome
      have hold := (hc.mem_known e).mpr (Option.isSome_iff_ne_none.mpr hsome)
      exact (List.nodup_append.mp hnodup).2.2 e hold e hfresh rfl
    have hnode := hmem.mp (.inr hfresh)
    by_cases hannounced : e ∈ announcements (order.map Prod.snd)
    · exact ⟨hannounced, hunknown⟩
    · simp [hunknown, hannounced] at hnode
  · rintro ⟨hannounced, hunknown⟩
    exact (hmem.mpr (by simp [hunknown, hannounced])).resolve_left (by simp [hunknown])

/-- Two runs of the same sessions on a registry that differ only in how the discovery queue goes on. -/
structure Agreeing (r : Registry) (sessions : List (Endpoint × List Message))
    (run run' : Shared × List (Endpoint × Reply)) : Prop where
  node : ∀ e, run.1.registry.node? e = run'.1.registry.node? e
  counts : run.1.registry.counts = run'.1.registry.counts
  goodRecords : run.1.registry.goodRecords = run'.1.registry.goodRecords
  /-- Every endpoint that is announced and not known was counted as new once. -/
  added : addedIn run.2 = (r.newIn (sessions.flatMap Prod.snd)).length ∧ addedIn run'.2 = addedIn run.2
  queue : ∃ new new', run.1.registry.discoveryQueue = r.discoveryQueue ++ new ∧
    run'.1.registry.discoveryQueue = r.discoveryQueue ++ new' ∧ new.Perm new'
  pongs : ∀ session ∈ sessions, pongsOf session.1 run.2 = pongsOf session.1 run'.2
  accepted : ∀ reply ∈ run.2 ++ run'.2, ∀ fault, reply.2 ≠ .refused fault

theorem Attended.agreeing {run run' : Shared × List (Endpoint × Reply)} (hc : r.Consistent)
    (distinct : (sessions.map Prod.fst).Nodup)
    (known : ∀ session ∈ sessions, (r.node? session.1).isSome = true)
    (horder : Interleaving sessions order) (horder' : Interleaving sessions order')
    (h : Attended order r run.1.registry run.2) (h' : Attended order' r run'.1.registry run'.2) :
    Agreeing r sessions run run' := by
  obtain ⟨new, hknown, hadded, hnew⟩ := h.fresh hc horder
  obtain ⟨new', hknown', hadded', hnew'⟩ := h'.fresh hc horder'
  have hheard := horder.heardFrom_congr horder' distinct
  have hannounced : ∀ e, e ∈ announcements (order.map Prod.snd) ↔ e ∈ announcements (order'.map Prod.snd) := by
    intro e
    simp only [announcements, List.mem_flatMap, horder.mem_iff, horder'.mem_iff]
  have hnode : ∀ e, run.1.registry.node? e = run'.1.registry.node? e := by
    intro e
    rw [h.node, h'.node, hheard]
    simp only [hannounced]
  have hsize : run.1.registry.known.size = run'.1.registry.known.size := by
    rw [← Array.length_toList, ← Array.length_toList, hknown, hknown', List.length_append, List.length_append,
      (hnew.trans hnew'.symm).length_eq]
  constructor
  case node => exact hnode
  case counts =>
    simp only [Registry.counts, h.consistent.size_eq, h'.consistent.size_eq, hsize, h.tallies.taken,
      h'.tallies.taken, h.tallies.queued, h'.tallies.queued, h.tallies.connecting, h'.tallies.connecting,
      h.tallies.good, h'.tallies.good, h.tallies.dead, h'.tallies.dead]
  case goodRecords => simp only [Registry.goodRecords, h.tallies.good, h'.tallies.good, hnode]
  case added =>
    rw [hadded, hadded', hnew.length_eq, hnew'.length_eq]
    exact ⟨rfl, rfl⟩
  case queue =>
    exact ⟨new, new', h.tallies.discoveryQueue hc hknown, h'.tallies.discoveryQueue hc hknown',
      hnew.trans hnew'.symm⟩
  case pongs =>
    intro session hsession
    obtain ⟨n, hn⟩ := Option.isSome_iff_exists.mp (known session hsession)
    rw [h.pongs _ n hn, h'.pongs _ n hn, hheard]
  case accepted =>
    intro reply hreply
    rcases List.mem_append.mp hreply with hreply | hreply
    · exact h.accepted reply hreply
    · exact h'.accepted reply hreply

open Registry (performAll)

/-- **Sessions with different peers commute.** Whatever calls have made of a registry, let any sessions with
    peers of different known nodes handle any messages. Any two orders of all messages in which each session
    keeps its own lead to the same nodes, the same counts and the same records; as many endpoints were new, and
    these are the announced ones that were not known, each once; they stand behind the discovery queue,
    arranged one way or the other; and the pongs of each session turn out to be the same. -/
theorem sessions_commute (calls : List Registry.Call) (s : Shared)
    (sessions : List (Endpoint × List Message)) (distinct : (sessions.map Prod.fst).Nodup)
    (known : ∀ session ∈ sessions, ((performAll {} calls).node? session.1).isSome = true)
    {order order' : List (Endpoint × Message)} (h : Interleaving sessions order)
    (h' : Interleaving sessions order') :
    Agreeing (performAll {} calls) sessions
      (Shared.attendAll order { s with registry := performAll {} calls })
      (Shared.attendAll order' { s with registry := performAll {} calls }) := by
  have hc := Registry.consistent_empty.performAll calls
  have hattended : ∀ {order}, Interleaving sessions order → Attended order (performAll {} calls)
      (Shared.attendAll order { s with registry := performAll {} calls }).1.registry
      (Shared.attendAll order { s with registry := performAll {} calls }).2 := by
    intro order h
    refine Shared.attendAll_attended order { s with registry := performAll {} calls } hc ?_
    intro heard hheard
    obtain ⟨said, hsaid⟩ := h.speaker heard hheard
    exact known _ hsaid
  exact Attended.agreeing hc distinct known h h' (hattended h) (hattended h')

/-- One of the two known nodes in the example below. -/
def firstPeer : Endpoint := .of (.v4 ⟨10, 0, 0, 1⟩) 8333

def secondPeer : Endpoint := .of (.v4 ⟨10, 0, 0, 2⟩) 8333

/-- How both get a session, and the first a ping that it is to answer. -/
def twoSessions : List Registry.Call :=
  [.add [firstPeer, secondPeer], .takeNext, .takeNext, .markConnecting firstPeer, .markConnecting secondPeer,
    .setPingNonce firstPeer 7]

/-- A message that both peers send. -/
def rumour : Message := .addrV2 [⟨0, ⟨1⟩, .ipv4 ⟨10, 0, 0, 3⟩, 8333⟩]

/-- Whether the peer that also answers a ping is heard first or last, the host that both announce is new once. -/
theorem rumour_heard_twice :
    Agreeing (performAll {} twoSessions) [(firstPeer, [.pong 7, rumour]), (secondPeer, [rumour])]
      (Shared.attendAll [(firstPeer, .pong 7), (firstPeer, rumour), (secondPeer, rumour)]
        { host := default, registry := performAll {} twoSessions })
      (Shared.attendAll [(secondPeer, rumour), (firstPeer, .pong 7), (firstPeer, rumour)]
        { host := default, registry := performAll {} twoSessions }) := by
  refine sessions_commute twoSessions { host := default } _ (by decide) ?known
    (.next [] _ _ _ _ _ (.next [] _ _ _ _ _ (.next [(firstPeer, [])] [] _ _ _ _ (.done _ ?silent))))
    (.next [(firstPeer, [.pong 7, rumour])] [] _ _ _ _ (.next [] _ _ _ _ _ (.next [] _ _ _ _ _ (.done _ ?silent))))
  case known =>
    intro session hsession
    have hmem : session.1 ∈ [firstPeer, secondPeer] := by
      simp only [List.mem_cons, List.not_mem_nil, or_false] at hsession
      rcases hsession with rfl | rfl <;> simp
    have hadded : (Registry.add [firstPeer, secondPeer] {}).1.node? session.1 = some { endpoint := session.1 } := by
      rw [Registry.node?_add, if_pos hmem]
      simp [Registry.node?]
    -- Whoever is known stays known.
    obtain ⟨n, hn, -⟩ := (Registry.consistent_empty.add _).performAll_continued (twoSessions.drop 1) hadded
    exact Option.isSome_iff_exists.mpr ⟨n, hn⟩
  case silent => simp

end BitcoinCrawl
