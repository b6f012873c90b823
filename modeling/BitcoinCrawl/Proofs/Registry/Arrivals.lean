import BitcoinCrawl.Proofs.Registry.Discovery
import BitcoinCrawl.Proofs.Registry.History
import Mathlib.Algebra.Ring.Nat

set_option autoImplicit false

/-! # First come, first served

Over any run of calls the endpoints that are handed out, with those that still wait behind them, are the
announced ones, each once and in the order in which they were first announced (`handed_in_order`). One call
moves endpoints from the queue to its caller or puts new ones behind the queue, never both; the run follows by
induction, as an endpoint is new to a later call only if no earlier one announced it. -/

namespace BitcoinCrawl.Registry

/-! ## What calls take and give -/

/-- The endpoints that a call announces, duplicates included. -/
def Call.announced : Call → List Endpoint
  | .add es => es
  | _ => []

/-- The endpoints that some calls announce, in the order of the calls. -/
def announcedIn (calls : List Call) : List Endpoint := calls.flatMap Call.announced

/-- The endpoint that a call hands out, if it asks for one and one waits. -/
def handed (r : Registry) : Call → List Endpoint
  | .takeNext => r.takeNext.endpoint.toList
  | _ => []

/-- The endpoints that some calls hand out, one after the other. -/
def handedAll (r : Registry) : List Call → List Endpoint
  | [] => []
  | call :: rest => r.handed call ++ (r.perform call).handedAll rest

/-- The number that a call reports as new, if it announces anything. -/
def newcomers (r : Registry) : Call → List Nat
  | .add es => [(r.add es).2]
  | _ => []

/-- The numbers that some calls report as new. -/
def newcomersAll (r : Registry) : List Call → List Nat
  | [] => []
  | call :: rest => r.newcomers call ++ (r.perform call).newcomersAll rest

theorem unknownIn_nil (r : Registry) : r.unknownIn [] = [] := rfl

/-- To an empty registry every endpoint is new. -/
theorem unknownIn_empty (es : List Endpoint) : unknownIn es {} = es.eraseDups := by
  have hall : es.filter (fun e => (node? {} e).isNone) = es := by
    rw [List.filter_eq_self]
    intro e _
    simp [node?]
  rw [unknownIn, hall]

variable {r : Registry}

/-! ## One call -/

/-- What a call does with the list of known endpoints, the discovery queue and the number it reports. -/
structure Served (r : Registry) (call : Call) : Prop where
  known : (r.perform call).known.toList = r.known.toList ++ r.unknownIn call.announced
  queue : r.handed call ++ (r.perform call).discoveryQueue = r.discoveryQueue ++ r.unknownIn call.announced
  count : (r.newcomers call).sum = (r.unknownIn call.announced).length

theorem Consistent.served_add (hc : r.Consistent) (es : List Endpoint) : Served r (.add es) := by
  obtain ⟨hknown, hcount⟩ := add_unknownIn es r
  have htaken : r.taken ≤ r.known.toList.length := by
    rw [Array.length_toList]
    exact hc.taken_le
  refine ⟨hknown, ?_, ?_⟩
  · show (r.add es).1.known.toList.drop (r.add es).1.taken = r.discoveryQueue ++ r.unknownIn es
    rw [hknown, taken_add, List.drop_append_of_le_length htaken]
    rfl
  · show [(r.add es).2].sum = (r.unknownIn es).length
    rw [List.sum_singleton, hcount]

theorem Consistent.served_takeNext (hc : r.Consistent) : Served r .takeNext := by
  cases hqueue : r.discoveryQueue with
  | nil =>
      have hsame := takeNext_of_nil hqueue
      refine ⟨?_, ?_, rfl⟩
      · show r.takeNext.registry.known.toList = r.known.toList ++ []
        rw [hsame, List.append_nil]
      · show r.takeNext.endpoint.toList ++ r.takeNext.registry.discoveryQueue = r.discoveryQueue ++ []
        rw [hsame, List.append_nil]
        rfl
  | cons e rest =>
      obtain ⟨hendpoint, hknown, hrest⟩ := hc.takeNext_listed hqueue
      refine ⟨?_, ?_, rfl⟩
      · show r.takeNext.registry.known.toList = r.known.toList ++ []
        rw [hknown, List.append_nil]
      · show r.takeNext.endpoint.toList ++ r.takeNext.registry.discoveryQueue = r.discoveryQueue ++ []
        rw [hendpoint, hrest, hqueue, List.append_nil]
        rfl

/-- Calls about a node that has left the queue neither hand out nor announce anything. -/
theorem served_of_isVisit {call : Call} (hvisit : call.isVisit = true) : Served r call := by
  have hlisted := perform_listed r call hvisit
  have hnone : call.announced = [] ∧ r.handed call = [] ∧ r.newcomers call = [] := by
    cases call with
    | add | takeNext => cases hvisit
    | markConnecting | markGood | markDead | setPingNonce | recordPong => exact ⟨rfl, rfl, rfl⟩
  obtain ⟨hannounced, hhanded, hnew⟩ := hnone
  refine ⟨?_, ?_, ?_⟩
  · rw [hlisted.known, hannounced, unknownIn_nil, List.append_nil]
  · rw [hhanded, hlisted.queue, hannounced, unknownIn_nil, List.append_nil, List.nil_append]
  · rw [hnew, hannounced, unknownIn_nil]
    rfl

theorem Consistent.served (hc : r.Consistent) (call : Call) : Served r call := by
  cases call with
  | add es => exact hc.served_add es
  | takeNext => exact hc.served_takeNext
  | markConnecting | markGood | markDead | setPingNonce | recordPong => exact served_of_isVisit rfl

theorem Consistent.node?_eq_none (hc : r.Consistent) (e : Endpoint) : r.node? e = none ↔ e ∉ r.known.toList := by
  rw [hc.mem_known, Bool.not_eq_true, Option.isSome_eq_false_iff, Option.isNone_iff_eq_none]

/-- What a call announces is known behind it, and nothing else that was not known before. -/
theorem Consistent.node?_perform_eq_none (hc : r.Consistent) (call : Call) (e : Endpoint) :
    (r.perform call).node? e = none ↔ r.node? e = none ∧ e ∉ call.announced := by
  rw [(hc.perform call).node?_eq_none, hc.node?_eq_none, (hc.served call).known, List.mem_append, mem_unknownIn,
    hc.node?_eq_none]
  tauto

/-! ## A run of calls -/

/-- What some calls do with the list of known endpoints, the discovery queue and the numbers they report. -/
structure ServedAll (r : Registry) (calls : List Call) : Prop where
  known : (r.performAll calls).known.toList = r.known.toList ++ r.unknownIn (announcedIn calls)
  queue : r.handedAll calls ++ (r.performAll calls).discoveryQueue =
    r.discoveryQueue ++ r.unknownIn (announcedIn calls)
  count : (r.newcomersAll calls).sum = (r.unknownIn (announcedIn calls)).length

theorem Consistent.servedAll (hc : r.Consistent) (calls : List Call) : ServedAll r calls := by
  induction calls generalizing r with
  | nil => exact ⟨(List.append_nil _).symm, (List.append_nil _).symm, rfl⟩
  | cons call rest ih =>
      have hfirst := hc.served call
      have hrest := ih (hc.perform call)
      -- What the first call announced is not new to the others.
      have hsplit : r.unknownIn (announcedIn (call :: rest)) =
          r.unknownIn call.announced ++ (r.perform call).unknownIn (announcedIn rest) :=
        unknownIn_append _ (hc.node?_perform_eq_none call)
      refine ⟨?_, ?_, ?_⟩
      · calc (r.performAll (call :: rest)).known.toList
            = ((r.perform call).performAll rest).known.toList := rfl
          _ = (r.perform call).known.toList ++ (r.perform call).unknownIn (announcedIn rest) := hrest.known
          _ = r.known.toList ++ r.unknownIn (announcedIn (call :: rest)) := by
              rw [hfirst.known, hsplit, List.append_assoc]
      · calc r.handedAll (call :: rest) ++ (r.performAll (call :: rest)).discoveryQueue
            = r.handed call ++ ((r.perform call).handedAll rest ++
                ((r.perform call).performAll rest).discoveryQueue) := List.append_assoc _ _ _
          _ = (r.handed call ++ (r.perform call).discoveryQueue) ++
                (r.perform call).unknownIn (announcedIn rest) := by
              rw [hrest.queue, List.append_assoc]
          _ = r.discoveryQueue ++ r.unknownIn (announcedIn (call :: rest)) := by
              rw [hfirst.queue, hsplit, List.append_assoc]
      · calc (r.newcomersAll (call :: rest)).sum
            = (r.newcomers call).sum + ((r.perform call).newcomersAll rest).sum := List.sum_append
          _ = (r.unknownIn (announcedIn (call :: rest))).length := by
              rw [hfirst.count, hrest.count, hsplit, List.length_append]

/-- What is known behind some calls on an empty registry is what they announced. -/
theorem node?_performAll_empty (calls : List Call) (e : Endpoint) :
    (performAll {} calls).node? e = none ↔ e ∉ announcedIn calls := by
  have hknown := (consistent_empty.servedAll calls).known
  rw [unknownIn_empty] at hknown
  rw [(consistent_empty.performAll calls).node?_eq_none, hknown, List.mem_append, List.mem_eraseDups]
  exact not_congr (or_iff_right List.not_mem_nil)

/-- **Discovery is first come, first served.** Behind any calls on an empty registry, in any order:

    * what they handed out, followed by what still waits, is what they announced, each endpoint once, at the
      place where it was first announced;
    * a further announcement reports as new as many endpoints as it has that no call announced before, copies
      counted once;
    * all the numbers reported so add up to the number of known nodes. -/
theorem handed_in_order (calls : List Call) :
    handedAll {} calls ++ (performAll {} calls).discoveryQueue = (announcedIn calls).eraseDups ∧
      (∀ es, ((performAll {} calls).add es).2 = (es.filter (· ∉ announcedIn calls)).eraseDups.length) ∧
      (newcomersAll {} calls).sum = (performAll {} calls).counts.total := by
  have hserved := consistent_empty.servedAll calls
  refine ⟨?_, fun es => ?_, ?_⟩
  · have hqueue := hserved.queue
    rwa [unknownIn_empty] at hqueue
  · have hnew : es.filter (fun e => ((performAll {} calls).node? e).isNone) =
        es.filter (· ∉ announcedIn calls) := by
      refine List.filter_congr fun e _ => ?_
      rw [Bool.eq_iff_iff, Option.isNone_iff_eq_none, node?_performAll_empty, decide_eq_true_iff]
    rw [(add_unknownIn es _).2, unknownIn, hnew]
  · have hsize : (performAll {} calls).counts.total = (performAll {} calls).known.toList.length := by
      rw [Array.length_toList]
      exact (consistent_empty.performAll calls).size_eq
    rw [hsize, hserved.known, hserved.count]
    rfl

end BitcoinCrawl.Registry
