import BitcoinCrawl.Proofs.Registry.Calls

set_option autoImplicit false

/-! # The list of known endpoints

Known endpoints are kept in the order in which they were announced, and the discovery queue is the end of that
list. Announcements put new endpoints behind both, taking the next endpoint shortens the queue, and nothing
else touches either. -/

namespace BitcoinCrawl.Registry

/-- Two registries that know the same endpoints and have the same ones waiting. -/
structure SameListed (r r' : Registry) : Prop where
  known : r'.known = r.known
  taken : r'.taken = r.taken

theorem SameListed.queue {r r' : Registry} (h : SameListed r r') : r'.discoveryQueue = r.discoveryQueue := by
  rw [discoveryQueue, discoveryQueue, h.known, h.taken]

/-- Whether a call is about a node that has left the discovery queue. -/
def Call.isVisit : Call → Bool
  | .add _ | .takeNext => false
  | _ => true

theorem SameListed.orKept {r : Registry} {result : Except RegistryFault Registry}
    (h : ∀ r', result = .ok r' → SameListed r r') : SameListed r (r.orKept result) := by
  cases result with
  | ok r' => exact h r' rfl
  | error fault => exact ⟨rfl, rfl⟩

theorem perform_listed (r : Registry) (call : Call) (hvisit : call.isVisit = true) :
    SameListed r (r.perform call) := by
  cases call with
  | add | takeNext => cases hvisit
  | markConnecting e =>
      refine .orKept fun r' h => ?_
      obtain ⟨n, -, -, rfl⟩ := markConnecting_eq_ok.mp h
      exact ⟨rfl, rfl⟩
  | markGood e peer =>
      refine .orKept fun r' h => ?_
      obtain ⟨n, -, -, rfl⟩ := markGood_eq_ok.mp h
      exact ⟨rfl, rfl⟩
  | markDead e =>
      refine .orKept fun r' h => ?_
      obtain ⟨n, -, -, rfl⟩ := markDead_eq_ok.mp h
      exact ⟨rfl, rfl⟩
  | setPingNonce e nonce =>
      refine .orKept fun r' h => ?_
      obtain ⟨n, -, -, rfl⟩ := setPingNonce_eq_ok.mp h
      exact ⟨rfl, rfl⟩
  | recordPong e nonce =>
      refine .orKept fun r' h => ?_
      obtain ⟨n, -, rfl⟩ := recordPong_fst_eq_ok.mp h
      exact ⟨rfl, rfl⟩

variable {r : Registry}

/-! ## New endpoints -/

/-- The endpoints of a list that a registry does not know, each once, in the order of their first places. -/
def unknownIn (es : List Endpoint) (r : Registry) : List Endpoint :=
  (es.filter fun e => (r.node? e).isNone).eraseDups

theorem mem_unknownIn {es : List Endpoint} {e : Endpoint} :
    e ∈ r.unknownIn es ↔ e ∈ es ∧ r.node? e = none := by
  rw [unknownIn, List.mem_eraseDups, List.mem_filter, Option.isNone_iff_eq_none]

/-- Behind some endpoints only that is new which is none of them. -/
theorem unknownIn_append {r' : Registry} {es : List Endpoint} (fs : List Endpoint)
    (h : ∀ e, r'.node? e = none ↔ r.node? e = none ∧ e ∉ es) :
    r.unknownIn (es ++ fs) = r.unknownIn es ++ r'.unknownIn fs := by
  have hrest : (fs.filter fun e => (r.node? e).isNone).removeAll (es.filter fun e => (r.node? e).isNone) =
      fs.filter fun e => (r'.node? e).isNone := by
    rw [List.removeAll, List.filter_filter]
    refine List.filter_congr fun e _ => ?_
    rw [Bool.eq_iff_iff]
    simp only [Bool.and_eq_true, Option.isNone_iff_eq_none, h, List.elem_eq_mem, List.mem_filter, Bool.not_eq_true',
      decide_eq_false_iff_not]
    tauto
  rw [unknownIn, List.filter_append, List.eraseDups_append, hrest]
  rfl

theorem addOne_unknownIn (r : Registry) (k : Nat) (e : Endpoint) :
    (addOne (r, k) e).1.known.toList = r.known.toList ++ r.unknownIn [e] ∧
      (addOne (r, k) e).2 = k + (r.unknownIn [e]).length := by
  cases he : r.node? e with
  | some n =>
      rw [addOne_of_known k (by simp [he])]
      simp [unknownIn, he]
  | none =>
      rw [addOne_of_new k he]
      simp [unknownIn, he, List.eraseDups_cons]

/-- New endpoints come behind the known ones in the order in which they are announced, and are counted. -/
theorem add_unknownIn (es : List Endpoint) (r : Registry) :
    (r.add es).1.known.toList = r.known.toList ++ r.unknownIn es ∧ (r.add es).2 = (r.unknownIn es).length := by
  -- By induction on the announced endpoints, from any count of new ones.
  have hfold : ∀ (es : List Endpoint) (r : Registry) (k : Nat),
      (es.foldl Registry.addOne (r, k)).1.known.toList = r.known.toList ++ r.unknownIn es ∧
        (es.foldl Registry.addOne (r, k)).2 = k + (r.unknownIn es).length := by
    intro es
    induction es with
    | nil => exact fun r k => ⟨(List.append_nil _).symm, rfl⟩
    | cons e rest ih =>
        intro r k
        have hnode : ∀ e', (addOne (r, k) e).1.node? e' = none ↔ r.node? e' = none ∧ e' ∉ [e] := by
          intro e'
          rw [node?_addOne, List.mem_singleton, eq_comm (a := e')]
          by_cases he : e = e' <;> simp [he]
        have hsplit : r.unknownIn (e :: rest) = r.unknownIn [e] ++ (addOne (r, k) e).1.unknownIn rest :=
          unknownIn_append rest hnode
        obtain ⟨hfirst, hone⟩ := addOne_unknownIn r k e
        obtain ⟨hknown, hcount⟩ := ih (addOne (r, k) e).1 (addOne (r, k) e).2
        rw [List.foldl_cons, hsplit]
        refine ⟨?_, ?_⟩
        · rw [hknown, hfirst, List.append_assoc]
        · rw [hcount, hone, List.length_append, Nat.add_assoc]
  obtain ⟨hknown, hcount⟩ := hfold es r 0
  exact ⟨hknown, hcount.trans (Nat.zero_add _)⟩

/-- What adding endpoints makes of a registry, of which some were new. -/
structure Grown (r : Registry) (es fresh : List Endpoint) (r' : Registry) : Prop where
  known : r'.known.toList = r.known.toList ++ fresh
  taken : r'.taken = r.taken
  announced : ∀ e ∈ fresh, e ∈ es
  covered : ∀ e ∈ es, e ∈ r'.known.toList

theorem Grown.queue {es fresh : List Endpoint} {r' : Registry} (hg : Grown r es fresh r')
    (hc : r.Consistent) : r'.discoveryQueue = r.discoveryQueue ++ fresh := by
  have htaken : r.taken ≤ r.known.toList.length := by
    rw [Array.length_toList]
    exact hc.taken_le
  rw [discoveryQueue, discoveryQueue, hg.known, hg.taken]
  exact List.drop_append_of_le_length htaken

theorem Consistent.addOne_grown (hc : r.Consistent) (k : Nat) (e : Endpoint) :
    ∃ fresh, (Registry.addOne (r, k) e).2 = k + fresh.length ∧
      Grown r [e] fresh (Registry.addOne (r, k) e).1 := by
  cases he : r.node? e with
  | some n =>
      have hknown : (r.node? e).isSome = true := by rw [he]; rfl
      rw [addOne_of_known k hknown]
      refine ⟨[], rfl, (List.append_nil _).symm, rfl, nofun, fun e' hmem => ?_⟩
      rw [List.mem_singleton.mp hmem]
      exact (hc.mem_known e).mpr hknown
  | none =>
      rw [addOne_of_new k he]
      refine ⟨[e], rfl, Array.toList_push, rfl, fun _ h => h, fun e' hmem => ?_⟩
      rw [Array.toList_push]
      exact List.mem_append_right _ hmem

theorem taken_add (es : List Endpoint) (r : Registry) : (r.add es).1.taken = r.taken := by
  have hfold : ∀ (es : List Endpoint) (acc : Registry × Nat), (es.foldl addOne acc).1.taken = acc.1.taken := by
    intro es
    induction es with
    | nil => exact fun _ => rfl
    | cons e rest ih =>
        intro acc
        rw [List.foldl_cons, ih]
        simp only [addOne]
        split <;> rfl
  exact hfold es (r, 0)

/-- Adding endpoints puts the new ones, as many as are counted, behind the list. -/
theorem Consistent.add_grown (hc : r.Consistent) (es : List Endpoint) :
    ∃ fresh, (r.add es).2 = fresh.length ∧ Grown r es fresh (r.add es).1 := by
  obtain ⟨hknown, hcount⟩ := add_unknownIn es r
  refine ⟨r.unknownIn es, hcount, hknown, taken_add es r, fun e he => (mem_unknownIn.mp he).1, fun e he => ?_⟩
  rw [(hc.add es).mem_known, node?_add, if_pos he]
  cases r.node? e <;> rfl

/-- Taking the oldest entry of the discovery queue leaves the others. -/
theorem Consistent.takeNext_listed {e : Endpoint} {rest : List Endpoint} (hc : r.Consistent)
    (hqueue : r.discoveryQueue = e :: rest) :
    r.takeNext.endpoint = some e ∧ r.takeNext.registry.known = r.known ∧
      r.takeNext.registry.discoveryQueue = rest := by
  obtain ⟨n, -, -, htake⟩ := hc.takeNext_of_cons hqueue
  have hrest : r.known.toList.drop (r.taken + 1) = rest := by
    rw [← List.drop_drop, show r.known.toList.drop r.taken = e :: rest from hqueue]
    rfl
  rw [htake]
  exact ⟨rfl, rfl, hrest⟩

/-! ## Visits -/

/-- The oldest entry of the discovery queue can be taken and marked. -/
theorem Consistent.take_mark {e : Endpoint} {rest : List Endpoint} (hc : r.Consistent)
    (hqueue : r.discoveryQueue = e :: rest) :
    ∃ r₁ r₂, r.takeNext = { registry := r₁, endpoint := some e } ∧ r₁.markConnecting e = .ok r₂ ∧
      r₂.Consistent ∧ r₂.discoveryQueue = rest ∧ r₂.connecting = r.connecting + 1 ∧
      r₂.state? e = some .connecting := by
  obtain ⟨n, hn, -, htake⟩ := hc.takeNext_of_cons hqueue
  have hnode : r.takeNext.registry.node? e = some { n with state := .queued } := by
    rw [htake]
    exact (node?_put r e e _).trans (if_pos rfl)
  have hmark := markConnecting_eq_ok.mpr ⟨_, hnode, rfl, rfl⟩
  obtain ⟨-, -, hrest⟩ := hc.takeNext_listed hqueue
  refine ⟨_, _, ?_, hmark, hc.takeNext.markConnecting hmark, hrest, ?_, ?_⟩
  · rw [htake]
  · rw [htake]
    rfl
  · exact (state?_put _ e e { n with state := .connecting }).trans (if_pos rfl)

/-- A node that is being dialed can be pinged and then be marked as good. -/
theorem Consistent.note_mark {e : Endpoint} (hc : r.Consistent) (hstate : r.state? e = some .connecting)
    (nonce : UInt64) : ∃ r₁, r.setPingNonce e nonce = .ok r₁ ∧
      ∀ peer, ∃ r₂, r₁.markGood e peer = .ok r₂ ∧ r₂.Consistent ∧ r₂.state? e = some .good := by
  obtain ⟨n, hn, hs⟩ := state?_eq_some.mp hstate
  have hset : r.setPingNonce e nonce = .ok _ := setPingNonce_eq_ok.mpr ⟨n, hn, by rw [Node.isLive, hs]; rfl, rfl⟩
  refine ⟨_, hset, fun peer => ?_⟩
  have hnode : (r.put e { n with pingNonce := nonce }).node? e = some { n with pingNonce := nonce } :=
    (node?_put r e e _).trans (if_pos rfl)
  have hmark : (r.put e { n with pingNonce := nonce }).markGood e peer = .ok _ :=
    markGood_eq_ok.mpr ⟨_, hnode, hs, rfl⟩
  refine ⟨_, hmark, (hc.setPingNonce hset).markGood hmark, ?_⟩
  exact (state?_put _ e e { n with pingNonce := nonce, state := .good, peer := some peer }).trans (if_pos rfl)

/-- Two endpoints that are added first wait in their order. -/
theorem add_pair {a b : Endpoint} (hab : a ≠ b) :
    (perform {} (.add [a, b])).discoveryQueue = [a, b] ∧ (perform {} (.add [a, b])).connecting = 0 := by
  have hfirst := addOne_of_new (r := {}) (e := a) 0 (by simp [node?])
  have hsecond := addOne_of_new
    (r := { put a { endpoint := a } {} with known := #[a] }) (e := b) 1
    ((node?_put {} a b _).trans (by simp [hab, node?]))
  simp only [perform, add, List.foldl_cons, List.foldl_nil, hfirst]
  exact ⟨congrArg (·.1.discoveryQueue) hsecond, congrArg (·.1.connecting) hsecond⟩

end BitcoinCrawl.Registry
