import BitcoinCrawl.Proofs.Crawl.Simulation
import Mathlib.Tactic.SplitIfs

set_option autoImplicit false

/-! # What holds throughout a crawl

`Outline.Orderly` collects what a crawl never loses, whatever the order of its steps: a consistent registry,
a bounded work queue, a pool of fixed size whose active visits are counted, and workers whose outcomes are
about the endpoint they dialed. Where the endpoints are is the subject of `Proofs/Crawl/Custody`. -/

namespace BitcoinCrawl

/-- What a worker has in its hands belongs together: a dial is for its endpoint, an outcome about it, and
    there is a connection to go on with exactly if the outcome is good. -/
def WorkerPhase.Fits : WorkerPhase → Prop
  | dialing e dial _ => dial.IsFor e
  | reporting e (.good peer) link => peer.endpoint = e ∧ link.isSome = true
  | reporting e (.dead e') link => e' = e ∧ link = none
  | _ => True

theorem WorkerPhase.Fits.endpoint {e : Endpoint} {outcome : Outcome} {link : Option Link}
    (h : (reporting e outcome link).Fits) : outcome.endpoint = e := by
  cases outcome <;> exact h.1

/-- Where something in a list changes, a count changes by what it was and what it becomes. -/
theorem countP_set_add {α : Type} {l : List α} {i : Nat} {old : α} (p : α → Bool) (new : α)
    (h : l[i]? = some old) :
    (l.set i new).countP p + (if p old then 1 else 0) = l.countP p + if p new then 1 else 0 := by
  obtain ⟨hi, rfl⟩ := List.getElem?_eq_some_iff.mp h
  rw [List.countP_set hi]
  have hpos : (if p l[i] then 1 else 0) ≤ l.countP p := by
    split_ifs with hp
    · exact List.countP_pos_iff.mpr ⟨l[i], List.getElem_mem hi, hp⟩
    · exact Nat.zero_le _
  omega

/-- Two kinds that exclude each other are together no more than a kind that both are of. -/
theorem countP_add_le {α : Type} {p q r : α → Bool} (l : List α) (hpq : ∀ x, p x = true → q x = false)
    (hp : ∀ x, p x = true → r x = true) (hq : ∀ x, q x = true → r x = true) :
    l.countP p + l.countP q ≤ l.countP r := by
  induction l with
  | nil => simp
  | cons x rest ih =>
      simp only [List.countP_cons]
      by_cases hpx : p x = true
      · simp only [hpx, hpq x hpx, hp x hpx, if_true, Bool.false_eq_true, if_false]
        omega
      · by_cases hqx : q x = true
        · simp only [hqx, hq x hqx, if_true, if_neg hpx]
          omega
        · rw [if_neg hpx, if_neg hqx]
          omega

/-- Two kinds that exclude each other are together no more than all there are. -/
theorem countP_add_le_length {α : Type} {p q : α → Bool} (l : List α)
    (hpq : ∀ x, p x = true → q x = false) : l.countP p + l.countP q ≤ l.length := by
  have hle := countP_add_le (r := fun _ => true) l hpq (fun _ _ => rfl) (fun _ _ => rfl)
  rwa [List.countP_true] at hle

namespace Outline

/-- What holds throughout a crawl with a pool of some size. -/
structure Orderly (size : Nat) (o : Outline) : Prop where
  consistent : o.registry.Consistent
  /-- Outcomes are listened to. -/
  listening : o.outcomes.isOpen = true
  capacity : o.queue.capacity = size
  /-- There is room for what is queued and for what the feeder has reserved. -/
  room : o.queue.items.length + (if o.feeder.hasReserved then 1 else 0) ≤ size
  pool : o.phases.length = size
  fits : ∀ phase ∈ o.phases, phase.Fits
  active : o.active = .ofNat (o.phases.countP (·.isActive))

variable {world : World} {size : Nat} {o o' : Outline} {h : History}

theorem Initial.orderly {seeds : List Endpoint} (hinit : o.Initial size seeds) : o.Orderly size where
  consistent := by
    rw [hinit.registry]
    exact Registry.consistent_empty.perform (.add seeds)
  listening := by rw [hinit.outcomes]
  capacity := by rw [hinit.queue]
  room := by simp [hinit.queue, hinit.feeder, Feeder.hasReserved]
  pool := by simp [hinit.phases]
  fits := by
    rw [hinit.phases]
    intro phase hmem
    rw [List.eq_of_mem_replicate hmem]
    trivial
  active := by simp [hinit.phases, hinit.active, List.countP_replicate, WorkerPhase.isActive]

/-- Only calls change the registry. -/
theorem Step.registry (step : Step world o h o') :
    ∃ calls, o'.registry = o.registry.performAll calls := by
  cases step with
  | search => exact ⟨[.takeNext], rfl⟩
  | mark i e registry hi marked =>
      refine ⟨[.markConnecting e], ?_⟩
      simp only [Registry.performAll, List.foldl, Registry.perform, marked]
      rfl
  | note i e link nonce => exact ⟨[.setPingNonce e nonce], rfl⟩
  | serve i session session' registry hi same edit =>
      cases edit with
      | none => exact ⟨[], rfl⟩
      | announced es => exact ⟨[.add es], rfl⟩
      | ponged nonce => exact ⟨[.recordPong session.endpoint nonce], rfl⟩
  | record outcome => exact ⟨[outcome.call], rfl⟩
  | _ => exact ⟨[], rfl⟩

theorem Reach.registry (reach : Reach world o h o') :
    ∃ calls, o'.registry = o.registry.performAll calls := by
  induction reach with
  | start => exact ⟨[], rfl⟩
  | step before next ih =>
      obtain ⟨calls, hcalls⟩ := ih
      obtain ⟨more, hmore⟩ := next.registry
      refine ⟨calls ++ more, ?_⟩
      rw [hmore, hcalls]
      exact (List.foldl_append ..).symm

theorem Orderly.fits_set {new : WorkerPhase} (ho : o.Orderly size) (i : Nat) (fits : new.Fits) :
    ∀ phase ∈ o.phases.set i new, phase.Fits := by
  intro phase hmem
  rcases List.mem_or_eq_of_mem_set hmem with hmem | rfl
  · exact ho.fits phase hmem
  · exact fits

/-- A worker of the pool comes to stand somewhere else, its visit being as active as before. -/
theorem Orderly.place {i : Nat} {old : WorkerPhase} (new : WorkerPhase) (ho : o.Orderly size)
    (hi : o.phases[i]? = some old) (fits : new.Fits) (active : new.isActive = old.isActive) :
    (o.place i new).Orderly size where
  consistent := ho.consistent
  listening := ho.listening
  capacity := ho.capacity
  room := ho.room
  pool := (List.length_set ..).trans ho.pool
  fits := ho.fits_set i fits
  active := by
    have hcount := countP_set_add (·.isActive) new hi
    rw [active] at hcount
    show o.active = .ofNat ((o.phases.set i new).countP (·.isActive))
    rw [ho.active, Nat.add_right_cancel hcount]

theorem Step.orderly (step : Step world o h o') (ho : o.Orderly size) : o'.Orderly size := by
  have hconsistent : o'.registry.Consistent := by
    obtain ⟨calls, hcalls⟩ := step.registry
    rw [hcalls]
    exact ho.consistent.performAll calls
  cases step with
  | rest | stop | pass => exact { ho with }
  | shift feeder before after room =>
      have hroom := ho.room
      refine { ho with room := ?_ }
      -- A place that is newly reserved was free, and the queue is as large as the pool.
      show o.queue.items.length + (if feeder.hasReserved then 1 else 0) ≤ size
      by_cases hreserved : feeder.hasReserved = true
      · rcases room hreserved with hbefore | hfree
        · rw [hbefore] at hroom
          rwa [hreserved]
        · have hcapacity := ho.capacity
          have hlt := of_decide_eq_true hfree
          rw [if_pos hreserved]
          omega
      · rw [if_neg hreserved]
        omega
  | search hf =>
      have hroom := ho.room
      rw [hf] at hroom
      refine { ho with consistent := hconsistent, room := ?_ }
      dsimp only
      split <;> exact hroom
  | hand e hf =>
      -- The endpoint takes the place that was reserved for it.
      have hroom := ho.room
      rw [hf] at hroom
      refine { ho with room := ?_ }
      show (o.queue.items ++ [e]).length + 0 ≤ size
      rw [List.length_append]
      exact hroom
  | wake i hi => exact ho.place _ hi trivial rfl
  | retire i queue hi kept =>
      have hplace := ho.place .exited hi trivial rfl
      refine { hplace with capacity := kept.2.trans ho.capacity, room := ?_ }
      show queue.items.length + _ ≤ size
      rw [kept.1]
      exact ho.room
  | claim i e items hi running front =>
      have hplace := ho.place (.claimed e) hi trivial rfl
      have hroom := ho.room
      rw [front, List.length_cons] at hroom
      refine { hplace with capacity := ho.capacity, room := ?_ }
      show items.length + (if o.feeder.hasReserved then 1 else 0) ≤ size
      omega
  | mark i e registry hi marked =>
      exact { ho.place (.marked e) hi trivial rfl with consistent := hconsistent }
  | skip i e fault hi failed => exact ho.place _ hi trivial rfl
  | dial i e hi =>
      let dialing : WorkerPhase := .dialing e (.unanswered none) (o.now + world.config.peerTimeout)
      have hactive : (o.phases.set i dialing).countP (·.isActive) = o.phases.countP (·.isActive) + 1 :=
        countP_set_add WorkerPhase.isActive dialing hi
      refine { ho with
        pool := (List.length_set ..).trans ho.pool, fits := ho.fits_set i trivial, active := ?_ }
      show o.active + 1 = .ofNat ((o.phases.set i dialing).countP (·.isActive))
      rw [ho.active, hactive, UInt64.ofNat_add]
      rfl
  | abandon i e dial deadline hi stopped => exact ho.place _ hi trivial rfl
  | await i e dial deadline s seen hi timely =>
      have hfor : dial.IsFor e := ho.fits _ (List.mem_of_getElem? hi)
      exact ho.place _ hi (Dial.step_isFor world s hfor) rfl
  | connect i e dial deadline s connected hi answer =>
      have hfor : dial.IsFor e := ho.fits _ (List.mem_of_getElem? hi)
      exact ho.place _ hi ⟨Dial.step_connected world hfor answer, rfl⟩ rfl
  | fail i e dial deadline seen hi reason => exact ho.place _ hi ⟨rfl, rfl⟩ rfl
  | report i e outcome link hi listening =>
      cases link with
      | none => exact { ho.place .leaving hi trivial rfl with listening := ho.listening }
      | some link =>
          exact { ho.place (.noting e link) hi trivial rfl with listening := ho.listening }
  | drop i e outcome link hi deaf =>
      -- The aggregator outlives the workers.
      rw [ho.listening] at deaf
      cases deaf
  | note i e link nonce hi =>
      exact { ho.place (.pinging e link nonce) hi trivial rfl with consistent := hconsistent }
  | ping i e link link' nonce hi => exact ho.place _ hi trivial rfl
  | attend i e link nonce session hi same => exact ho.place _ hi trivial rfl
  | giveUp i e link nonce hi => exact ho.place _ hi trivial rfl
  | serve i session session' registry hi same edit =>
      exact { ho.place (.serving session') hi trivial rfl with consistent := hconsistent }
  | hangUp i session hi => exact ho.place _ hi trivial rfl
  | leave i hi =>
      have hactive : (o.phases.set i .idle).countP (·.isActive) + 1 = o.phases.countP (·.isActive) :=
        countP_set_add WorkerPhase.isActive .idle hi
      refine { ho with
        pool := (List.length_set ..).trans ho.pool, fits := ho.fits_set i trivial, active := ?_ }
      show o.active - 1 = .ofNat ((o.phases.set i .idle).countP (·.isActive))
      rw [ho.active, ← hactive, UInt64.ofNat_add]
      exact UInt64.add_sub_cancel _ 1
  | record outcome items front => exact { ho with consistent := hconsistent }

end Outline

end BitcoinCrawl
