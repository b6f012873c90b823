import BitcoinCrawl.Proofs.Registry.History

set_option autoImplicit false

/-! # Pings and pongs add up

Every ping of a node is answered once at most, whatever pongs come: the first that carries the nonce of the last
ping counts, later copies of it find no ping out, and others are told apart from it by that nonce. A nonce of zero
stands for no ping and cannot be answered. The main theorem (`keepalive_accounted`) says so of any run of calls;
it follows the nonce that is out from the call that noted it, by induction on the calls after that. -/

namespace BitcoinCrawl.Registry

/-! ## Pings noted and pongs recorded -/

/-- What a pong from an endpoint would turn out to be. -/
def reply (r : Registry) (e : Endpoint) (pong : UInt64) : Except RegistryFault PongOutcome :=
  (r.recordPong e pong).map Prod.snd

/-- Whether a call notes a ping to an endpoint, and is not refused. -/
def renews (r : Registry) (e : Endpoint) : Call → Bool
  | .setPingNonce e' nonce => e' == e && r.succeeds (.setPingNonce e' nonce)
  | _ => false

/-- Whether any of some calls notes a ping to an endpoint. -/
def renewsAny (r : Registry) (e : Endpoint) : List Call → Bool
  | [] => false
  | call :: rest => r.renews e call || (r.perform call).renewsAny e rest

/-- The nonce of the pong that a call records from an endpoint. -/
def Call.pong (e : Endpoint) : Call → List UInt64
  | .recordPong e' nonce => if e' = e then [nonce] else []
  | _ => []

/-- The nonces of the pongs that some calls record from an endpoint, in their order. -/
def pongsIn (e : Endpoint) (calls : List Call) : List UInt64 := calls.flatMap (Call.pong e)

variable {r : Registry} {e : Endpoint}

theorem reply_of_node? {n : Node} (hn : r.node? e = some n) (pong : UInt64) :
    r.reply e pong = .ok (n.recordPong pong).2 := by
  have hok : r.recordPong e pong = .ok (r.put e (n.recordPong pong).1, (n.recordPong pong).2) :=
    recordPong_eq_ok.mpr ⟨n, hn, rfl⟩
  rw [reply, hok]
  rfl

theorem node?_of_reply {pong : UInt64} {outcome : PongOutcome} (h : r.reply e pong = .ok outcome) :
    ∃ n, r.node? e = some n ∧ outcome = (n.recordPong pong).2 := by
  cases hresult : r.recordPong e pong with
  | error fault =>
      rw [reply, hresult] at h
      cases h
  | ok result =>
      obtain ⟨n, hn, -⟩ := recordPong_eq_ok.mp hresult
      rw [reply_of_node? hn] at h
      exact ⟨n, hn, (Except.ok.inj h).symm⟩

end BitcoinCrawl.Registry

namespace BitcoinCrawl.Node

/-! ## One pong -/

/-- A pong that carries the nonce of the ping that is out leaves none out, and any other changes nothing there. -/
theorem recordPong_pingNonce (pong : UInt64) (n : Node) :
    (n.recordPong pong).1.pingNonce = if n.pingNonce = pong then 0 else n.pingNonce := by
  unfold recordPong
  split_ifs with hnone hmatch
  · exact hnone
  · rfl
  · rfl
  · rfl

theorem recordPong_outcome (pong : UInt64) (n : Node) :
    (n.recordPong pong).2 = if n.pingNonce = 0 then .unsolicited
      else if pong = n.pingNonce then .matched (n.pingCount + 1) else .mismatched n.pingNonce := by
  unfold recordPong
  simp only [eq_comm (a := pong)]
  split_ifs <;> rfl

/-- Only a match changes the node. -/
theorem recordPong_of_not_matched {pong : UInt64} {n : Node} (h : ∀ k, (n.recordPong pong).2 ≠ .matched k) :
    (n.recordPong pong).1 = n := by
  unfold recordPong at h ⊢
  split_ifs with hnone hmatch
  · rfl
  · rw [if_neg hnone, if_pos hmatch] at h
    exact absurd rfl (h _)
  · rfl

end BitcoinCrawl.Node

namespace BitcoinCrawl.Registry

variable {r : Registry} {e : Endpoint}

/-! ## The ping that is out -/

/-- What becomes of the nonce that is out, and of the number of pings that were answered, when some pongs are
    recorded and no further ping is noted. -/
structure Awaits (nonce : UInt64) (pongs : List UInt64) (out : UInt64) (answered : Nat) : Prop where
  out_eq : out = if nonce ∈ pongs then 0 else nonce
  answered_eq : answered = if nonce ≠ 0 ∧ nonce ∈ pongs then 1 else 0

theorem Awaits.nil (nonce : UInt64) : Awaits nonce [] nonce 0 where
  out_eq := (if_neg List.not_mem_nil).symm
  answered_eq := (if_neg fun h => List.not_mem_nil h.2).symm

theorem Awaits.append {nonce out out' : UInt64} {pongs more : List UInt64} {first second : Nat}
    (h : Awaits nonce pongs out first) (h' : Awaits out more out' second) :
    Awaits nonce (pongs ++ more) out' (first + second) := by
  obtain ⟨rfl, rfl⟩ := h
  obtain ⟨rfl, rfl⟩ := h'
  by_cases hfirst : nonce ∈ pongs
  · constructor <;> simp [hfirst]
  · constructor <;> simp [hfirst]

/-- A pong answers the ping that is out if it carries its nonce. -/
theorem awaits_recordPong {n : Node} (hn : r.node? e = some n) (pong : UInt64) :
    ∃ n', (r.perform (.recordPong e pong)).node? e = some n' ∧
      Awaits n.pingNonce [pong] n'.pingNonce (r.answers e (.recordPong e pong)) := by
  have hok : r.recordPong e pong = .ok (r.put e (n.recordPong pong).1, (n.recordPong pong).2) :=
    recordPong_eq_ok.mpr ⟨n, hn, rfl⟩
  refine ⟨(n.recordPong pong).1, ?_, ?_, ?_⟩
  · simp only [perform, hok]
    exact (node?_put r e e _).trans (if_pos rfl)
  · rw [n.recordPong_pingNonce]
    simp only [List.mem_singleton]
  · rw [answers, hok, n.recordPong_outcome]
    by_cases hzero : n.pingNonce = 0
    · simp [hzero]
    · by_cases hmatch : pong = n.pingNonce
      · simp [hzero, hmatch]
      · simp [hzero, hmatch, Ne.symm hmatch]

theorem perform_setPingNonce_of_refused {nonce : UInt64} (h : r.succeeds (.setPingNonce e nonce) = false) :
    r.perform (.setPingNonce e nonce) = r := by
  simp only [perform]
  cases hresult : r.setPingNonce e nonce with
  | ok r' =>
      rw [succeeds, hresult] at h
      cases h
  | error fault => rfl

/-- A call that notes no ping to a node leaves the ping that is out to the pongs. -/
theorem Consistent.perform_awaits (hc : r.Consistent) (call : Call) {n : Node} (hn : r.node? e = some n)
    (hkept : r.renews e call = false) :
    ∃ n', (r.perform call).node? e = some n' ∧
      Awaits n.pingNonce (call.pong e) n'.pingNonce (r.answers e call) := by
  by_cases hpong : ∃ pong, call = .recordPong e pong
  · obtain ⟨pong, rfl⟩ := hpong
    rw [show Call.pong e (.recordPong e pong) = [pong] from if_pos rfl]
    exact awaits_recordPong hn pong
  · have hother := not_exists.mp hpong
    have hnone : call.pong e = [] := by
      cases call with
      | recordPong e' pong => exact if_neg fun he => hother pong (by rw [he])
      | add | takeNext | markConnecting | markGood | markDead | setPingNonce => rfl
    rw [hnone, answers_eq_zero hother]
    obtain ⟨n', hn', hfollowed⟩ := hc.perform_followed call hn
    cases hfollowed with
    | same => exact ⟨_, hn', .nil _⟩
    | advanced next peer follows => exact ⟨_, hn', .nil _⟩
    | answered pong h => exact absurd h (hother pong)
    | pinged nonce h =>
        subst h
        have hrefused : r.succeeds (.setPingNonce e nonce) = false := by
          simpa only [renews, beq_self_eq_true, Bool.true_and] using hkept
        exact ⟨n, by rw [perform_setPingNonce_of_refused hrefused, hn], .nil _⟩

/-- Until another ping is noted, it is up to the pongs what becomes of the one that is out. -/
theorem Consistent.performAll_awaits (hc : r.Consistent) (calls : List Call) {n : Node}
    (hn : r.node? e = some n) (hkept : r.renewsAny e calls = false) :
    ∃ n', (r.performAll calls).node? e = some n' ∧
      Awaits n.pingNonce (pongsIn e calls) n'.pingNonce (r.answersAll e calls) := by
  induction calls generalizing r n with
  | nil => exact ⟨n, hn, .nil _⟩
  | cons call rest ih =>
      obtain ⟨hfirst, hrest⟩ := Bool.or_eq_false_iff.mp hkept
      obtain ⟨n₁, hn₁, hone⟩ := hc.perform_awaits call hn hfirst
      obtain ⟨n₂, hn₂, hmore⟩ := ih (hc.perform call) hn₁ hrest
      exact ⟨n₂, hn₂, hone.append hmore⟩

/-- A node that no ping was noted of since it is known has none out. -/
theorem Consistent.performAll_unpinged (hc : r.Consistent) (calls : List Call) (hunknown : r.node? e = none)
    (hkept : r.renewsAny e calls = false) {n : Node} (hn : (r.performAll calls).node? e = some n) :
    n.pingNonce = 0 := by
  induction calls generalizing r with
  | nil => cases hunknown.symm.trans hn
  | cons call rest ih =>
      obtain ⟨-, hrest⟩ := Bool.or_eq_false_iff.mp hkept
      rcases hc.perform_unknown call hunknown with hnone | hnew
      · exact ih (hc.perform call) hnone hrest hn
      · obtain ⟨n', hn', hawaits⟩ := (hc.perform call).performAll_awaits rest hnew hrest
        obtain rfl : n' = n := Option.some.inj (hn'.symm.trans hn)
        rw [hawaits.out_eq]
        exact ite_self 0

/-- If any call notes a ping to an endpoint, some call is the last that does. -/
theorem exists_last_renewal (calls : List Call) (h : r.renewsAny e calls = true) :
    ∃ before nonce mid r', calls = before ++ .setPingNonce e nonce :: mid ∧
      (r.performAll before).setPingNonce e nonce = .ok r' ∧ r'.renewsAny e mid = false := by
  induction calls generalizing r with
  | nil => cases h
  | cons call rest ih =>
      by_cases hrest : (r.perform call).renewsAny e rest = true
      · obtain ⟨before, nonce, mid, r', rfl, hok, hlast⟩ := ih hrest
        exact ⟨call :: before, nonce, mid, r', rfl, hok, hlast⟩
      · rw [Bool.not_eq_true] at hrest
        rw [renewsAny, hrest, Bool.or_false] at h
        cases call with
        | setPingNonce e' nonce =>
            obtain ⟨he, hsucceeds⟩ := Bool.and_eq_true_iff.mp h
            obtain rfl : e' = e := eq_of_beq he
            cases hresult : r.setPingNonce e' nonce with
            | ok r' =>
                have hperform : r.perform (.setPingNonce e' nonce) = r' := by
                  simp only [perform, hresult]
                  rfl
                exact ⟨[], nonce, rest, r', rfl, hresult, hperform ▸ hrest⟩
            | error fault =>
                rw [succeeds, hresult] at hsucceeds
                cases hsucceeds
        | add | takeNext | markConnecting | markGood | markDead | recordPong => cases h

/-! ## The accounts -/

/-- What the pongs of an endpoint come to behind some calls on an empty registry. -/
structure Accounted (e : Endpoint) (calls : List Call) : Prop where
  /-- The node counts the pongs that matched, with 64 bits. -/
  count : ∀ n, (performAll {} calls).node? e = some n →
    n.pingCount = UInt64.ofNat (answersAll {} e calls) ∧
      (answersAll {} e calls < UInt64.size → n.pingCount.toNat = answersAll {} e calls)
  /-- A match reports how many there were by then, itself included. -/
  total : ∀ pong k, (performAll {} calls).reply e pong = .ok (.matched k) →
    answersAll {} e (calls ++ [.recordPong e pong]) = answersAll {} e calls + 1 ∧
      k = UInt64.ofNat (answersAll {} e calls + 1)
  /-- Before any ping is noted nothing matches. -/
  unpinged : renewsAny {} e calls = false → ∀ pong outcome,
    (performAll {} calls).reply e pong = .ok outcome → outcome = .unsolicited
  /-- Otherwise some ping was noted last. -/
  pinged : renewsAny {} e calls = true → ∃ before nonce since r',
    calls = before ++ .setPingNonce e nonce :: since ∧
      (performAll {} before).setPingNonce e nonce = .ok r' ∧ r'.renewsAny e since = false
  /-- The first pong with its nonce is the only one that matches, and none does if that is zero. Before it pongs
      with other nonces are told which is out; after it, as with a nonce of zero, all are unsolicited. -/
  awaited : ∀ before nonce since r', calls = before ++ .setPingNonce e nonce :: since →
    (performAll {} before).setPingNonce e nonce = .ok r' → r'.renewsAny e since = false →
      (r'.answersAll e since = if nonce ≠ 0 ∧ nonce ∈ pongsIn e since then 1 else 0) ∧
        ∀ pong, (performAll {} calls).reply e pong = .ok (
          if nonce = 0 ∨ nonce ∈ pongsIn e since then .unsolicited
          else if pong = nonce then .matched (UInt64.ofNat (answersAll {} e calls + 1))
          else .mismatched nonce)
  /-- A pong that does not match changes nothing, of no node. -/
  quiet : ∀ pong r' outcome, (performAll {} calls).recordPong e pong = .ok (r', outcome) →
    (∀ k, outcome ≠ .matched k) →
      r' = { performAll {} calls with nodes := r'.nodes } ∧
        ∀ e', r'.node? e' = (performAll {} calls).node? e'

theorem performAll_pingCount_eq (calls : List Call) {n : Node} (hn : (performAll {} calls).node? e = some n) :
    n.pingCount = UInt64.ofNat (answersAll {} e calls) :=
  consistent_empty.performAll_pingCount calls (by simp [node?]) hn

theorem matched_total {calls : List Call} {pong k : UInt64}
    (h : (performAll {} calls).reply e pong = .ok (.matched k)) :
    answersAll {} e (calls ++ [.recordPong e pong]) = answersAll {} e calls + 1 ∧
      k = UInt64.ofNat (answersAll {} e calls + 1) := by
  obtain ⟨n, hn, houtcome⟩ := node?_of_reply h
  have hok : (performAll {} calls).recordPong e pong =
      .ok ((performAll {} calls).put e (n.recordPong pong).1, .matched k) :=
    recordPong_eq_ok.mpr ⟨n, hn, by rw [houtcome]⟩
  have hanswers : (performAll {} calls).answers e (.recordPong e pong) = 1 := by
    rw [answers, hok]
    exact if_pos rfl
  refine ⟨?_, ?_⟩
  · rw [answersAll_append, answersAll, hanswers]
    rfl
  · rw [n.recordPong_outcome] at houtcome
    split_ifs at houtcome
    rw [PongOutcome.matched.inj houtcome, performAll_pingCount_eq calls hn, UInt64.ofNat_add]
    rfl

/-- The node behind the last ping that was noted of it. -/
theorem node?_of_last_renewal {before since : List Call} {nonce : UInt64} {r' : Registry}
    (hok : (performAll {} before).setPingNonce e nonce = .ok r') (hlast : r'.renewsAny e since = false) :
    ∃ n, (performAll {} (before ++ .setPingNonce e nonce :: since)).node? e = some n ∧
      Awaits nonce (pongsIn e since) n.pingNonce (r'.answersAll e since) := by
  have hrun : performAll {} (before ++ .setPingNonce e nonce :: since) = r'.performAll since := by
    rw [performAll_append, performAll, List.foldl_cons]
    show performAll ((performAll {} before).orKept ((performAll {} before).setPingNonce e nonce)) since = _
    rw [hok]
    rfl
  have hc := (consistent_empty.performAll before).setPingNonce hok
  obtain ⟨n, -, -, rfl⟩ := setPingNonce_eq_ok.mp hok
  have hnoted := (node?_put (performAll {} before) e e { n with pingNonce := nonce }).trans (if_pos rfl)
  obtain ⟨n', hn', hawaits⟩ := hc.performAll_awaits since hnoted hlast
  exact ⟨n', by rw [hrun, hn'], hawaits⟩

theorem recordPong_quiet {pong : UInt64} {r' : Registry} {outcome : PongOutcome}
    (h : r.recordPong e pong = .ok (r', outcome)) (hnot : ∀ k, outcome ≠ .matched k) :
    r' = { r with nodes := r'.nodes } ∧ ∀ e', r'.node? e' = r.node? e' := by
  obtain ⟨n, hn, hpair⟩ := recordPong_eq_ok.mp h
  obtain ⟨rfl, rfl⟩ := Prod.mk.inj hpair
  rw [Node.recordPong_of_not_matched hnot]
  refine ⟨rfl, fun e' => ?_⟩
  rw [node?_put]
  split_ifs with he
  · rw [← he, hn]
  · rfl

/-- **Every ping is answered once at most, and every answer is counted.** For any endpoint and any run of calls,
    with any nonces noted and any pongs recorded in it:

    * the ping count is the number of pongs that matched, and each match reports the count it leads to;
    * of the pongs behind the last ping that was noted, the first with its nonce matches and no other does; none
      does if that nonce is zero or if no ping was noted yet;
    * until then a pong with another nonce is told the nonce that is out, and from then on every pong is
      unsolicited;
    * what does not match leaves every node, every list and every counter as they were. -/
theorem keepalive_accounted (e : Endpoint) (calls : List Call) : Accounted e calls := by
  constructor
  case count =>
    intro n hn
    refine ⟨performAll_pingCount_eq calls hn, fun hfits => ?_⟩
    rw [performAll_pingCount_eq calls hn, UInt64.toNat_ofNat', Nat.mod_eq_of_lt hfits]
  case total => exact fun pong k => matched_total
  case unpinged =>
    intro hnone pong outcome hreply
    obtain ⟨n, hn, rfl⟩ := node?_of_reply hreply
    have hzero := consistent_empty.performAll_unpinged calls (by simp [node?]) hnone hn
    rw [n.recordPong_outcome, if_pos hzero]
  case pinged => exact exists_last_renewal calls
  case awaited =>
    rintro before nonce since r' rfl hok hlast
    obtain ⟨n, hn, hawaits⟩ := node?_of_last_renewal hok hlast
    refine ⟨hawaits.answered_eq, fun pong => ?_⟩
    rw [reply_of_node? hn, n.recordPong_outcome, performAll_pingCount_eq _ hn, hawaits.out_eq]
    by_cases hcame : nonce ∈ pongsIn e since
    · simp [hcame]
    · simp [hcame, UInt64.ofNat_add]
  case quiet => exact fun pong r' outcome => recordPong_quiet

end BitcoinCrawl.Registry
