import BitcoinCrawl.Proofs.Registry.Discovery
import BitcoinCrawl.Proofs.Registry.Refusals
import Mathlib.Logic.Relation

set_option autoImplicit false

/-! # What a registry never takes back

A registry only grows. Its nodes stay and move forward one edge at a time, the list of good endpoints gets
longer at its end, and what is reported of a good node changes in its ping count only. The main theorem
(`history_append_only`) says so of any registry that calls have made of an empty one, and any further calls;
each of these is either carried out whole or refused and then without effect. -/

namespace BitcoinCrawl

/-! ## One node -/

namespace Node

/-- What some calls make of a node, of whose pings they answer so many. -/
structure Continued (answers : Nat) (n n' : Node) : Prop where
  endpoint : n'.endpoint = n.endpoint
  /-- The state moves along edges. -/
  state : Relation.ReflTransGen (fun s s' : NodeState => s.precedes s' = true) n.state n'.state
  /-- Once classified, a node keeps its state and its peer. -/
  classified : n.state.isTerminal = true → n'.state = n.state ∧ n'.peer = n.peer
  /-- The count has 64 bits. -/
  pingCount : n'.pingCount = n.pingCount + UInt64.ofNat answers

theorem Continued.refl (n : Node) : n.Continued 0 n where
  endpoint := rfl
  state := .refl
  classified := fun _ => ⟨rfl, rfl⟩
  pingCount := (UInt64.add_zero n.pingCount).symm

theorem Continued.trans {first second : Nat} {n₁ n₂ n₃ : Node} (h₁ : n₁.Continued first n₂)
    (h₂ : n₂.Continued second n₃) : n₁.Continued (first + second) n₃ where
  endpoint := h₂.endpoint.trans h₁.endpoint
  state := h₁.state.trans h₂.state
  classified := by
    intro terminal
    obtain ⟨hs₁, hpeer₁⟩ := h₁.classified terminal
    obtain ⟨hs₂, hpeer₂⟩ := h₂.classified (hs₁ ▸ terminal)
    exact ⟨hs₂.trans hs₁, hpeer₂.trans hpeer₁⟩
  pingCount := by
    rw [h₂.pingCount, h₁.pingCount, UInt64.ofNat_add, UInt64.add_assoc]

/-- Unless it passes what 64 bits hold, the ping count is not lowered. -/
theorem Continued.pingCount_le {answers : Nat} {n n' : Node} (h : n.Continued answers n')
    (hfits : n.pingCount.toNat + answers < UInt64.size) : n.pingCount ≤ n'.pingCount := by
  rw [show UInt64.size = 2 ^ 64 from rfl] at hfits
  have hanswers : answers % 2 ^ 64 = answers := Nat.mod_eq_of_lt (by omega)
  rw [UInt64.le_iff_toNat_le, h.pingCount, UInt64.toNat_add, UInt64.toNat_ofNat', hanswers,
    Nat.mod_eq_of_lt hfits]
  exact Nat.le_add_right _ _

/-- What is reported of a classified node changes in its ping count only. -/
theorem Continued.record {answers : Nat} {n n' : Node} (h : n.Continued answers n')
    (terminal : n.state.isTerminal = true) : n'.record = { n.record with pingCount := n'.pingCount } := by
  simp only [Node.record, h.endpoint, (h.classified terminal).2]

theorem recordPong_pingCount (nonce : UInt64) (n : Node) :
    (n.recordPong nonce).1.pingCount
      = n.pingCount + match (n.recordPong nonce).2 with | .matched _ => 1 | _ => 0 := by
  unfold recordPong
  split_ifs <;> simp

end Node

namespace Registry

variable {r : Registry} {e : Endpoint}

/-- How many pings of an endpoint a call answers. -/
def answers (r : Registry) (e : Endpoint) : Call → Nat
  | .recordPong e' nonce =>
    match r.recordPong e' nonce with
    | .ok (_, .matched _) => if e' = e then 1 else 0
    | _ => 0
  | _ => 0

/-- How many pings of an endpoint some calls answer, one after the other. -/
def answersAll (r : Registry) (e : Endpoint) : List Call → Nat
  | [] => 0
  | call :: rest => r.answers e call + (r.perform call).answersAll e rest

theorem answers_le_one (r : Registry) (e : Endpoint) (call : Call) : r.answers e call ≤ 1 := by
  unfold answers
  split
  · split
    · split_ifs <;> decide
    · decide
  · decide

theorem answersAll_le (r : Registry) (e : Endpoint) (calls : List Call) :
    r.answersAll e calls ≤ calls.length := by
  induction calls generalizing r with
  | nil => exact Nat.le_refl 0
  | cons call rest ih =>
      have hone := r.answers_le_one e call
      have hrest := ih (r.perform call)
      simp only [answersAll, List.length_cons]
      omega

theorem answers_eq_zero {call : Call} (h : ∀ nonce, call ≠ .recordPong e nonce) : r.answers e call = 0 := by
  cases call with
  | recordPong e' nonce =>
      have he : e' ≠ e := fun he => h nonce (he ▸ rfl)
      simp only [answers, if_neg he]
      split <;> rfl
  | _ => rfl

theorem answersAll_append (r : Registry) (e : Endpoint) (calls more : List Call) :
    r.answersAll e (calls ++ more) = r.answersAll e calls + (r.performAll calls).answersAll e more := by
  induction calls generalizing r with
  | nil => exact (Nat.zero_add _).symm
  | cons call rest ih =>
      rw [List.cons_append, answersAll, answersAll, ih, Nat.add_assoc]
      rfl

/-- Who is not known answers nothing. -/
theorem answers_of_unknown (hn : r.node? e = none) (call : Call) : r.answers e call = 0 := by
  by_cases hcall : ∃ nonce, call = .recordPong e nonce
  · obtain ⟨nonce, rfl⟩ := hcall
    have hrefused : r.recordPong e nonce = .error (.unknownEndpoint e) :=
      recordPong_eq_error.mpr ⟨by rw [state?, hn]; rfl, rfl⟩
    rw [answers, hrefused]
  · exact answers_eq_zero (not_exists.mp hcall)

/-- A call moves a known node along one edge at most. -/
theorem Followed.state {call : Call} {n n' : Node} (h : Followed call e n n') :
    n'.state = n.state ∨ n.state.precedes n'.state = true := by
  cases h with
  | same | pinged => exact .inl rfl
  | answered nonce => exact .inl (n.recordPong_state nonce)
  | advanced next peer follows => exact .inr follows

theorem Followed.endpoint {call : Call} {n n' : Node} (h : Followed call e n n') :
    n'.endpoint = n.endpoint := by
  cases h with
  | same | pinged | advanced => rfl
  | answered nonce => exact n.recordPong_endpoint nonce

/-- Only a pong from the node changes how many of its pings were answered. -/
theorem Followed.pingCount {call : Call} {n n' : Node} (h : Followed call e n n')
    (hcall : ∀ nonce, call ≠ .recordPong e nonce) : n'.pingCount = n.pingCount := by
  cases h with
  | same | pinged | advanced => rfl
  | answered nonce h => exact absurd h (hcall nonce)

theorem Consistent.perform_pingCount (hc : r.Consistent) (call : Call) {n n' : Node}
    (hn : r.node? e = some n) (hn' : (r.perform call).node? e = some n') :
    n'.pingCount = n.pingCount + UInt64.ofNat (r.answers e call) := by
  by_cases hcall : ∃ nonce, call = .recordPong e nonce
  · obtain ⟨nonce, rfl⟩ := hcall
    have hok : r.recordPong e nonce = .ok (r.put e (n.recordPong nonce).1, (n.recordPong nonce).2) :=
      recordPong_eq_ok.mpr ⟨n, hn, rfl⟩
    have hput : (r.perform (.recordPong e nonce)).node? e = some (n.recordPong nonce).1 := by
      simp only [Registry.perform, hok]
      exact (node?_put r e e _).trans (if_pos rfl)
    rw [← Option.some.inj (hput.symm.trans hn'), Node.recordPong_pingCount, answers, hok]
    cases (n.recordPong nonce).2 <;> simp
  · have hother := not_exists.mp hcall
    obtain ⟨m, hm, hfollowed⟩ := hc.perform_followed call hn
    rw [← Option.some.inj (hm.symm.trans hn'), hfollowed.pingCount hother, answers_eq_zero hother]
    exact (UInt64.add_zero n.pingCount).symm

theorem Consistent.perform_continued (hc : r.Consistent) (call : Call) {n : Node}
    (hn : r.node? e = some n) :
    ∃ n', (r.perform call).node? e = some n' ∧ n.Continued (r.answers e call) n' := by
  obtain ⟨n', hn', hfollowed⟩ := hc.perform_followed call hn
  refine ⟨n', hn', hfollowed.endpoint, ?_, hfollowed.terminal, hc.perform_pingCount call hn hn'⟩
  rcases hfollowed.state with hs | hs
  · rw [hs]
  · exact .single hs

/-- A known node stays, and goes on from where it was. -/
theorem Consistent.performAll_continued (hc : r.Consistent) (calls : List Call) {n : Node}
    (hn : r.node? e = some n) :
    ∃ n', (r.performAll calls).node? e = some n' ∧ n.Continued (r.answersAll e calls) n' := by
  induction calls generalizing r n with
  | nil => exact ⟨n, hn, .refl n⟩
  | cons call rest ih =>
      obtain ⟨n₁, hn₁, hfirst⟩ := hc.perform_continued call hn
      obtain ⟨n₂, hn₂, hrest⟩ := ih (hc.perform call) hn₁
      exact ⟨n₂, hn₂, hfirst.trans hrest⟩

/-- The ping count of a node that has come up on the way says, up to what 64 bits hold, how many pings were
    answered. -/
theorem Consistent.performAll_pingCount (hc : r.Consistent) (calls : List Call) (hn : r.node? e = none)
    {n : Node} (hn' : (r.performAll calls).node? e = some n) :
    n.pingCount = UInt64.ofNat (r.answersAll e calls) := by
  induction calls generalizing r with
  | nil => cases hn.symm.trans hn'
  | cons call rest ih =>
      rw [answersAll, answers_of_unknown hn, Nat.zero_add]
      rcases hc.perform_unknown call hn with hnone | hnew
      · exact ih (hc.perform call) hnone hn'
      · obtain ⟨n', hn'', hcontinued⟩ := (hc.perform call).performAll_continued rest hnew
        obtain rfl : n' = n := Option.some.inj (hn''.symm.trans hn')
        rw [hcontinued.pingCount]
        exact UInt64.zero_add _

/-- A call raises no ping count by more than one. -/
theorem Consistent.perform_pingCount_le {bound : Nat} (hc : r.Consistent) (call : Call)
    (hbound : ∀ e n, r.node? e = some n → n.pingCount.toNat ≤ bound) {n : Node}
    (hn : (r.perform call).node? e = some n) : n.pingCount.toNat ≤ bound + 1 := by
  cases hbefore : r.node? e with
  | none =>
      rcases hc.perform_unknown call hbefore with hnone | hnew
      · cases hnone.symm.trans hn
      · cases hnew.symm.trans hn
        exact Nat.zero_le _
  | some old =>
      have hone := r.answers_le_one e call
      have hold := hbound e old hbefore
      rw [hc.perform_pingCount call hbefore hn, UInt64.toNat_add, UInt64.toNat_ofNat']
      omega

/-- No more pings of a node were answered than calls were made. -/
theorem performAll_pingCount_le (calls : List Call) {n : Node}
    (hn : (performAll {} calls).node? e = some n) : n.pingCount.toNat ≤ calls.length := by
  -- By induction on the calls, from any registry and any bound on its counts.
  have hrun : ∀ (calls : List Call) (r : Registry) (bound : Nat), r.Consistent →
      (∀ e n, r.node? e = some n → n.pingCount.toNat ≤ bound) →
      ∀ e n, (r.performAll calls).node? e = some n → n.pingCount.toNat ≤ bound + calls.length := by
    intro calls
    induction calls with
    | nil => exact fun r bound _ hbound => hbound
    | cons call rest ih =>
        intro r bound hc hbound e n hn
        have hrest := ih (r.perform call) (bound + 1) (hc.perform call)
          (fun e n => hc.perform_pingCount_le call hbound) e n hn
        rw [List.length_cons]
        omega
  have hempty : ∀ e n, ({} : Registry).node? e = some n → n.pingCount.toNat ≤ 0 := by
    intro e n hn
    simp [node?] at hn
  have hcount := hrun calls {} 0 consistent_empty hempty e n hn
  omega

/-! ## Lists and counters -/

/-- What is only ever added to: the list of good endpoints at its end, and two counters. -/
structure Grew (r r' : Registry) : Prop where
  good : r.good.toList <+: r'.good.toList
  dead : r.dead ≤ r'.dead
  known : r.known.size ≤ r'.known.size

theorem Grew.refl (r : Registry) : Grew r r :=
  ⟨List.prefix_rfl, Nat.le_refl _, Nat.le_refl _⟩

theorem Grew.trans {r₁ r₂ r₃ : Registry} (h₁ : Grew r₁ r₂) (h₂ : Grew r₂ r₃) : Grew r₁ r₃ :=
  ⟨h₁.good.trans h₂.good, Nat.le_trans h₁.dead h₂.dead, Nat.le_trans h₁.known h₂.known⟩

theorem Grew.orKept {result : Except RegistryFault Registry}
    (h : ∀ r', result = .ok r' → Grew r r') : Grew r (r.orKept result) := by
  cases result with
  | ok r' => exact h r' rfl
  | error fault => exact .refl r

theorem grew_addOne (r : Registry) (k : Nat) (e : Endpoint) : Grew r (addOne (r, k) e).1 := by
  cases h : r.node? e with
  | some n =>
      rw [addOne_of_known k (by rw [h]; rfl)]
      exact .refl r
  | none =>
      rw [addOne_of_new k h]
      refine ⟨List.prefix_rfl, Nat.le_refl _, ?_⟩
      rw [Array.size_push]
      exact Nat.le_succ _

theorem grew_add (r : Registry) (es : List Endpoint) : Grew r (r.add es).1 := by
  -- The fold also counts what is new, so the induction is for any registry with any count.
  have hfold : ∀ (es : List Endpoint) (acc : Registry × Nat), Grew acc.1 (es.foldl addOne acc).1 := by
    intro es
    induction es with
    | nil => exact fun acc => .refl acc.1
    | cons e rest ih => exact fun acc => (grew_addOne acc.1 acc.2 e).trans (ih (addOne acc e))
  exact hfold es (r, 0)

theorem Consistent.perform_grew (hc : r.Consistent) (call : Call) : Grew r (r.perform call) := by
  cases call with
  | add es => exact grew_add r es
  | takeNext =>
      simp only [Registry.perform]
      cases hqueue : r.discoveryQueue with
      | nil =>
          rw [takeNext_of_nil hqueue]
          exact .refl r
      | cons e rest =>
          obtain ⟨n, -, -, htake⟩ := hc.takeNext_of_cons hqueue
          rw [htake]
          exact ⟨List.prefix_rfl, Nat.le_refl _, Nat.le_refl _⟩
  | markConnecting e =>
      refine .orKept fun r' h => ?_
      obtain ⟨n, -, -, rfl⟩ := markConnecting_eq_ok.mp h
      exact ⟨List.prefix_rfl, Nat.le_refl _, Nat.le_refl _⟩
  | markGood e peer =>
      refine .orKept fun r' h => ?_
      obtain ⟨n, -, -, rfl⟩ := markGood_eq_ok.mp h
      refine ⟨⟨[e], ?_⟩, Nat.le_refl _, Nat.le_refl _⟩
      exact Array.toList_push.symm
  | markDead e =>
      refine .orKept fun r' h => ?_
      obtain ⟨n, -, -, rfl⟩ := markDead_eq_ok.mp h
      exact ⟨List.prefix_rfl, Nat.le_succ _, Nat.le_refl _⟩
  | setPingNonce e nonce =>
      refine .orKept fun r' h => ?_
      obtain ⟨n, -, -, rfl⟩ := setPingNonce_eq_ok.mp h
      exact ⟨List.prefix_rfl, Nat.le_refl _, Nat.le_refl _⟩
  | recordPong e nonce =>
      refine .orKept fun r' h => ?_
      obtain ⟨n, -, rfl⟩ := recordPong_fst_eq_ok.mp h
      exact ⟨List.prefix_rfl, Nat.le_refl _, Nat.le_refl _⟩

theorem Consistent.performAll_grew (hc : r.Consistent) (calls : List Call) :
    Grew r (r.performAll calls) := by
  induction calls generalizing r with
  | nil => exact .refl r
  | cons call rest ih => exact (hc.perform_grew call).trans (ih (hc.perform call))

/-- Every known endpoint has a node, and no other has. -/
theorem Consistent.size_eq (hc : r.Consistent) : r.nodes.size = r.known.size := by
  have hkeys : r.nodes.keys.Perm r.known.toList := by
    rw [List.perm_ext_iff_of_nodup Std.HashMap.nodup_keys hc.known_nodup]
    intro e
    rw [hc.mem_known, Std.HashMap.mem_keys, Std.HashMap.mem_iff_isSome_getElem?]
    rfl
  rw [← Std.HashMap.length_keys, hkeys.length_eq, Array.length_toList]

/-! ## Records -/

/-- Records of endpoints that two registries both know compare as those of their nodes do. -/
theorem forall₂_records {r' : Registry} {R : NodeRecord → NodeRecord → Prop} {es : List Endpoint}
    (h : ∀ e ∈ es, ∃ n n', r.node? e = some n ∧ r'.node? e = some n' ∧ R n.record n'.record) :
    List.Forall₂ R (es.filterMap fun e => (r.node? e).map Node.record)
      (es.filterMap fun e => (r'.node? e).map Node.record) := by
  induction es with
  | nil => exact .nil
  | cons e rest ih =>
      obtain ⟨n, n', hn, hn', hR⟩ := h e List.mem_cons_self
      have hrest := ih fun e he => h e (List.mem_cons_of_mem _ he)
      simp only [List.filterMap_cons, hn, hn', Option.map_some]
      exact .cons hR hrest

/-- A good node is known and stays good. -/
theorem Consistent.good_continued (hc : r.Consistent) (calls : List Call) (he : e ∈ r.good.toList) :
    ∃ n n', r.node? e = some n ∧ (r.performAll calls).node? e = some n' ∧
      n.state = .good ∧ n.Continued (r.answersAll e calls) n' := by
  obtain ⟨n, hn, hs⟩ := state?_eq_some.mp ((hc.mem_good e).mp he)
  obtain ⟨n', hn', hcontinued⟩ := hc.performAll_continued calls hn
  exact ⟨n, n', hn, hn', hs, hcontinued⟩

/-- There is a record exactly if a node is good. -/
theorem Consistent.goodRecords_eq_nil (hc : r.Consistent) :
    r.goodRecords = [] ↔ ∀ e, r.state? e ≠ some .good := by
  rw [goodRecords, List.filterMap_eq_nil_iff]
  constructor
  · intro hnone e hgood
    obtain ⟨n, hn, -⟩ := state?_eq_some.mp hgood
    have hrecord := hnone e ((hc.mem_good e).mpr hgood)
    rw [hn] at hrecord
    cases hrecord
  · intro hnone e he
    exact absurd ((hc.mem_good e).mp he) (hnone e)

theorem Consistent.goodRecords_of_counts (hc : r.Consistent) (h : 0 < r.counts.good) : r.goodRecords ≠ [] := by
  intro hnone
  have hlast : r.good[0] ∈ r.good.toList := Array.getElem_mem_toList h
  exact hc.goodRecords_eq_nil.mp hnone _ ((hc.mem_good _).mp hlast)

/-- What leaves the discovery queue is in no record. -/
theorem Consistent.goodRecords_takeNext (hc : r.Consistent) :
    (r.perform .takeNext).goodRecords = r.goodRecords := by
  simp only [Registry.perform]
  cases hqueue : r.discoveryQueue with
  | nil => rw [takeNext_of_nil hqueue]
  | cons e rest =>
      obtain ⟨n, hn, hs, htake⟩ := hc.takeNext_of_cons hqueue
      rw [htake]
      refine List.filterMap_congr fun e' he' => ?_
      have hne : e ≠ e' := by
        rintro rfl
        have hgood := (hc.mem_good e).mp he'
        rw [state?_of_node? hn, hs] at hgood
        cases hgood
      exact congrArg (Option.map Node.record) ((node?_put r e e' _).trans (if_neg hne))

/-- Records there are once are not lost. -/
theorem Consistent.goodRecords_ne_nil (hc : r.Consistent) (calls : List Call) (h : r.goodRecords ≠ []) :
    (r.performAll calls).goodRecords ≠ [] := by
  intro hnone
  rw [(hc.performAll calls).goodRecords_eq_nil] at hnone
  refine h (hc.goodRecords_eq_nil.mpr fun e hgood => ?_)
  obtain ⟨n, n', -, hn', hs, hcontinued⟩ := hc.good_continued calls ((hc.mem_good e).mpr hgood)
  have hsame := (hcontinued.classified (by rw [hs]; rfl)).1
  exact hnone e (state?_eq_some.mpr ⟨n', hn', hsame.trans hs⟩)

/-! ## The whole history -/

/-- What further calls leave of a registry that calls have made. -/
structure AppendOnly (before after : List Call) : Prop where
  /-- No node is removed, and each goes on from where it was. -/
  node : ∀ e n, (performAll {} before).node? e = some n →
    ∃ n', (performAll {} (before ++ after)).node? e = some n' ∧
      n.Continued ((performAll {} before).answersAll e after) n'
  good : (performAll {} before).good.toList <+: (performAll {} (before ++ after)).good.toList
  /-- Earlier records keep their places and, but for their ping counts, what they say. These are not
      lowered as long as 64 bits can count the calls. -/
  records : ∃ kept added, (performAll {} (before ++ after)).goodRecords = kept ++ added ∧
    List.Forall₂ (fun record record' => record' = { record with pingCount := record'.pingCount })
      (performAll {} before).goodRecords kept ∧
    (before.length + after.length < UInt64.size →
      List.Forall₂ (fun record record' => record.pingCount ≤ record'.pingCount)
        (performAll {} before).goodRecords kept)
  total_le : (performAll {} before).counts.total ≤ (performAll {} (before ++ after)).counts.total
  good_le : (performAll {} before).counts.good ≤ (performAll {} (before ++ after)).counts.good
  dead_le : (performAll {} before).counts.dead ≤ (performAll {} (before ++ after)).counts.dead

theorem appendOnly (before after : List Call) : AppendOnly before after := by
  have hc := consistent_empty.performAll before
  have hc' := consistent_empty.performAll (before ++ after)
  have hrun : performAll {} (before ++ after) = (performAll {} before).performAll after :=
    List.foldl_append
  have hgrew : Grew (performAll {} before) (performAll {} (before ++ after)) :=
    hrun ▸ hc.performAll_grew after
  obtain ⟨more, hmore⟩ := hgrew.good
  constructor
  case node =>
    intro e n hn
    rw [hrun]
    exact hc.performAll_continued after hn
  case good => exact hgrew.good
  case records =>
    let now := fun e => ((performAll {} (before ++ after)).node? e).map Node.record
    refine ⟨(performAll {} before).good.toList.filterMap now, more.filterMap now, ?_,
      forall₂_records fun e he => ?_, fun hfits => forall₂_records fun e he => ?_⟩
    · rw [goodRecords, ← hmore, List.filterMap_append]
    · obtain ⟨n, n', hn, hn', hs, hcontinued⟩ := hc.good_continued after he
      refine ⟨n, n', hn, hrun ▸ hn', ?_⟩
      exact hcontinued.record (by rw [hs]; rfl)
    · obtain ⟨n, n', hn, hn', -, hcontinued⟩ := hc.good_continued after he
      refine ⟨n, n', hn, hrun ▸ hn', hcontinued.pingCount_le ?_⟩
      have hbefore := performAll_pingCount_le before hn
      have hafter := (performAll {} before).answersAll_le e after
      omega
  case total_le =>
    show (performAll {} before).nodes.size ≤ (performAll {} (before ++ after)).nodes.size
    rw [hc.size_eq, hc'.size_eq]
    exact hgrew.known
  case good_le =>
    show (performAll {} before).good.size ≤ (performAll {} (before ++ after)).good.size
    exact hgrew.good.length_le
  case dead_le => exact hgrew.dead

/-- What one call does: it moves nodes along single edges, or is refused and does nothing. -/
structure Atomic (r : Registry) (call : Call) : Prop where
  edge : ∀ e s, r.state? e = some s →
    ∃ s', (r.perform call).state? e = some s' ∧ (s' = s ∨ s.precedes s' = true)
  new : ∀ e, r.state? e = none →
    (r.perform call).state? e = none ∨ (r.perform call).state? e = some .discovered
  /-- It fails for the reasons there are, and for no other. -/
  refused_iff : ∀ fault, r.result call = .error fault ↔ Refused r call fault
  /-- If it fails, nothing has been written by then. -/
  carryOut : Agrees r (r.result call) (call.carryOut r)
  kept : ∀ fault, r.result call = .error fault → r.perform call = r

theorem Consistent.atomic (hc : r.Consistent) (call : Call) : Atomic r call where
  edge := by
    intro e s hstate
    obtain ⟨n, hn, rfl⟩ := state?_eq_some.mp hstate
    obtain ⟨n', hn', hfollowed⟩ := hc.perform_followed call hn
    exact ⟨n'.state, state?_of_node? hn', hfollowed.state⟩
  new := by
    intro e hstate
    have hn : r.node? e = none := Option.map_eq_none_iff.mp hstate
    rcases hc.perform_unknown call hn with hnone | hnew
    · exact .inl (by rw [state?, hnone]; rfl)
    · exact .inr (state?_of_node? hnew)
  refused_iff := fun _ => result_eq_error hc
  carryOut := carryOut_agrees r call
  kept := by
    intro fault h
    rw [perform_eq, h]
    rfl

/-- **A registry takes nothing back, and a call that fails does nothing.** Of whatever calls have made of an
    empty registry, further calls remove no node, take none back to an earlier state or out of the last one,
    and change neither the order of the good nodes nor what was reported of them, except that their pings are
    counted. Every call moves nodes along single edges; it fails exactly if the endpoint is unknown, its node
    is not where the edge starts, or a ping is noted of a node without a connection, and then before it has
    written anything. -/
theorem history_append_only (before after : List Call) :
    AppendOnly before after ∧ ∀ call, Atomic (performAll {} before) call :=
  ⟨appendOnly before after, fun call => (consistent_empty.performAll before).atomic call⟩

end Registry

end BitcoinCrawl
