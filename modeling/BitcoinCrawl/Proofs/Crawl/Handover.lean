import BitcoinCrawl.Crawl.Shared
import BitcoinCrawl.Proofs.Registry.Discovery
import Mathlib.Logic.Function.Iterate

set_option autoImplicit false

/-! # The discovery queue from close up

To add endpoints and to ask for one takes several steps each: to lock the registry, to put entries into the
discovery queue or to take one out, to unlock it, and then to send a signal or to wait for one. Here all of
these are steps of their own, and others may come between any two. There are callers, who add endpoints or are
busy with nodes that have left the queue; a consumer, who asks for one endpoint after the other, and may go
away while it waits and come back; and strays, who look for an endpoint once while the consumer does not, and
go away if there is none. Whoever is not interrupted does what the operations of `Shared` do
(`Caller.unbroken`, `Seek.unbroken`). -/

namespace BitcoinCrawl.Handover

/-! ## The scene -/

/-- What became of the discovery queue, and of those who asked for an entry. -/
inductive Deed where
  | removed (seeker : Listener) (endpoints : List Endpoint)
  | returned (seeker : Listener) (endpoint : Endpoint)
  | dropped (seeker : Listener)
  deriving DecidableEq

/-- What all share. -/
structure Scene where
  shared : Shared
  /-- Whether somebody has locked the registry. -/
  locked : Bool := false
  /-- All deeds, in order. -/
  past : List Deed := []

namespace Scene

def setRegistry (registry : Registry) (scene : Scene) : Scene :=
  { scene with shared := { scene.shared with registry } }

def setArrivals (arrivals : Signal) (scene : Scene) : Scene :=
  { scene with shared := { scene.shared with arrivals } }

def setLocked (locked : Bool) (scene : Scene) : Scene := { scene with locked }

def note (deeds : List Deed) (scene : Scene) : Scene := { scene with past := scene.past ++ deeds }

end Scene

/-! ## Callers -/

/-- A call about a node that has left the discovery queue. -/
abbrev Visit := { call : Registry.Call // call.isVisit = true }

/-- Where a call of the registry is that does not ask for an endpoint. -/
inductive Caller where
  /-- Waiting for the lock, to add some endpoints. -/
  | adding (endpoints : List Endpoint)
  /-- Some are left, and some of the others were new. -/
  | pushing (left : List Endpoint) (added : Nat)
  /-- The lock is given back, and a signal is due. -/
  | signalling
  /-- Waiting for the lock. -/
  | calling (visit : Visit)
  | visiting (visit : Visit)
  | done

namespace Caller

/-- Whether a new entry was put into the queue and the signal has not been sent. -/
def isDue : Caller → Bool
  | pushing _ added => 0 < added
  | signalling => true
  | _ => false

/-- The next step of a call. Without the lock it waits. -/
def step (scene : Scene) : Caller → Scene × Caller
  | adding es => if scene.locked then (scene, adding es) else (scene.setLocked true, pushing es 0)
  | pushing [] added => (scene.setLocked false, if 0 < added then signalling else done)
  | pushing (e :: rest) added =>
    let (registry, added) := Registry.addOne (scene.shared.registry, added) e
    (scene.setRegistry registry, pushing rest added)
  | signalling => ({ scene with shared := scene.shared.signal }, done)
  | calling visit => if scene.locked then (scene, calling visit) else (scene.setLocked true, visiting visit)
  | visiting visit => ((scene.setRegistry (scene.shared.registry.perform visit)).setLocked false, done)
  | done => (scene, done)

/-- A step, as one of a caller and what it finds. -/
def advance (at_ : Scene × Caller) : Scene × Caller := at_.2.step at_.1

theorem push_all (es : List Endpoint) (added : Nat) (scene : Scene) :
    advance^[es.length] (scene, pushing es added)
      = (scene.setRegistry (es.foldl Registry.addOne (scene.shared.registry, added)).1,
        pushing [] (es.foldl Registry.addOne (scene.shared.registry, added)).2) := by
  induction es generalizing added scene with
  | nil => rfl
  | cons e rest ih =>
      rw [List.length_cons, Function.iterate_succ_apply]
      exact ih _ _

/-- Who adds endpoints without being interrupted has them added and signalled as one operation does. -/
theorem unbroken (es : List Endpoint) {scene : Scene} (free : scene.locked = false) :
    ∃ k, advance^[k] (scene, adding es)
      = ({ scene with shared := (scene.shared.discover es).1 }, done) := by
  obtain ⟨shared, locked, past⟩ := scene
  cases free
  have hpushed : advance^[es.length + 1] (⟨shared, false, past⟩, adding es)
      = (⟨(shared.add es).1, true, past⟩, pushing [] (shared.add es).2) :=
    push_all es 0 ⟨shared, true, past⟩
  by_cases hadded : 0 < (shared.add es).2
  · refine ⟨2 + (es.length + 1), ?_⟩
    rw [Function.iterate_add_apply, hpushed]
    show step _ (if 0 < (shared.add es).2 then signalling else done) = _
    simp only [if_pos hadded, Shared.discover]
    rfl
  · refine ⟨1 + (es.length + 1), ?_⟩
    rw [Function.iterate_add_apply, hpushed]
    show (_, if 0 < (shared.add es).2 then signalling else done) = _
    simp only [if_neg hadded, Shared.discover]
    rfl

end Caller

/-! ## Those who ask -/

/-- Where somebody is who asks for an endpoint. -/
inductive SeekPhase where
  /-- Waiting for the lock. -/
  | knocking
  | locking
  /-- An endpoint was taken, and the lock is to be given back. -/
  | found (endpoint : Endpoint)
  /-- The queue was empty, and the lock is to be given back. -/
  | bare
  /-- About to wait for a signal. -/
  | arming
  | listening
  deriving DecidableEq

/-- Somebody who asks for an endpoint, under a number of their own. -/
structure Seek where
  number : Listener
  phase : SeekPhase := .knocking

namespace Seek

/-- Another phase of the same. -/
def enter (phase : SeekPhase) (seek : Seek) : Seek := { seek with phase }

/-- What is noted when some entries, if any, leave the queue. -/
def removal (number : Listener) : List Endpoint → List Deed
  | [] => []
  | es => [.removed number es]

/-- The next step of a call that is asked for its result. It is over with the result. -/
def step (scene : Scene) (seek : Seek) : Scene × Option Seek :=
  match seek.phase with
  | .knocking => if scene.locked then (scene, seek) else (scene.setLocked true, seek.enter .locking)
  | .locking =>
    let gone := scene.shared.registry.takeNext.stale ++ scene.shared.registry.takeNext.endpoint.toList
    match scene.shared.takeNext with
    | (shared, some e) => (({ scene with shared }).note (removal seek.number gone), seek.enter (.found e))
    | (shared, none) => (({ scene with shared }).note (removal seek.number gone), seek.enter .bare)
  | .found e => ((scene.setLocked false).note [.returned seek.number e], none)
  | .bare => (scene.setLocked false, seek.enter .arming)
  | .arming =>
    match scene.shared.arrivals.listen seek.number with
    | (arrivals, true) => (scene.setArrivals arrivals, seek.enter .listening)
    | (arrivals, false) => (scene.setArrivals arrivals, seek.enter .knocking)
  | .listening =>
    if scene.shared.arrivals.isWoken seek.number then
      (scene.setArrivals (scene.shared.arrivals.accept seek.number), seek.enter .knocking)
    else (scene, seek)

/-- A step, unless the call is over. -/
def advance (at_ : Scene × Option Seek) : Scene × Option Seek :=
  match at_.2 with
  | some seek => seek.step at_.1
  | none => at_

/-- Who is let in and finds an entry comes out with it. -/
theorem look_some (scene : Scene) {s : Shared} {e : Endpoint} (n : Listener) (free : scene.locked = false)
    (h : scene.shared.takeNext = (s, some e)) :
    ∃ deeds, advance^[3] (scene, some { number := n })
      = (({ scene with shared := s }).note (deeds ++ [Deed.returned n e]), none) := by
  refine ⟨removal n (scene.shared.registry.takeNext.stale ++ scene.shared.registry.takeNext.endpoint.toList), ?_⟩
  obtain ⟨shared, locked, past⟩ := scene
  cases free
  simp only [Function.iterate_succ_apply, Function.iterate_zero_apply]
  simp [advance, step, enter, Scene.setLocked, Scene.note, h]

/-- Who finds none comes out and waits for a signal. -/
theorem look_none (scene : Scene) {s : Shared} (n : Listener) (free : scene.locked = false)
    (h : scene.shared.takeNext = (s, none)) :
    ∃ deeds, advance^[3] (scene, some { number := n })
      = (({ scene with shared := s }).note deeds, some { number := n, phase := .arming }) := by
  refine ⟨removal n (scene.shared.registry.takeNext.stale ++ scene.shared.registry.takeNext.endpoint.toList), ?_⟩
  obtain ⟨shared, locked, past⟩ := scene
  cases free
  simp only [Function.iterate_succ_apply, Function.iterate_zero_apply]
  simp [advance, step, enter, Scene.setLocked, Scene.note, h]

/-- Without a kept signal, who is about to wait does so. -/
theorem arm {scene : Scene} (n : Listener) (spent : scene.shared.arrivals.kept = false) :
    advance (scene, some { number := n, phase := .arming })
      = (scene.setArrivals (scene.shared.arrivals.listen n).1, some { number := n, phase := .listening }) := by
  simp [advance, step, enter, Signal.listen, spent]

/-- Who is polled for the first time without being interrupted does what one operation does. -/
theorem unbroken (n : Listener) {scene : Scene} (free : scene.locked = false) :
    ∃ k deeds, advance^[k] (scene, some { number := n })
        = (({ scene with shared := (scene.shared.awaitNext n).1 }).note deeds,
          match (scene.shared.awaitNext n).2 with
          | some _ => none
          | none => some { number := n, phase := .listening }) ∧
      ∀ e, (scene.shared.awaitNext n).2 = some e → deeds.getLast? = some (.returned n e) := by
  cases htake : scene.shared.takeNext with
  | mk s found =>
      cases found with
      | some e =>
          obtain ⟨deeds, hlook⟩ := look_some scene n free htake
          refine ⟨3, deeds ++ [.returned n e], ?_, ?_⟩
          · simp only [Shared.awaitNext, htake, hlook]
          · simp [Shared.awaitNext, htake]
      | none =>
          obtain ⟨deeds, hlook⟩ := look_none scene n free htake
          cases hkept : s.arrivals.kept with
          | false =>
              refine ⟨1 + 3, deeds, ?_, ?_⟩
              · rw [Function.iterate_add_apply, hlook, Function.iterate_one, arm n hkept]
                simp [Shared.awaitNext, htake, Signal.listen, hkept, Scene.setArrivals, Scene.note]
              · simp [Shared.awaitNext, htake, Signal.listen, hkept]
          | true =>
              -- The kept signal is used up, and the queue is looked at once more.
              let spent : Shared := { s with arrivals := { s.arrivals with kept := false } }
              let again := ({ scene with shared := spent } : Scene).note deeds
              have harm : advance^[1 + 3] (scene, some { number := n }) = (again, some { number := n }) := by
                rw [Function.iterate_add_apply, hlook, Function.iterate_one]
                simp [advance, step, enter, Signal.listen, hkept, Scene.setArrivals, Scene.note, spent, again]
              cases hagain : spent.takeNext with
              | mk s' found =>
                  have hspent : s'.arrivals.kept = false := by
                    rw [show s' = spent.takeNext.1 by rw [hagain]]
                    rfl
                  cases found with
                  | some e =>
                      obtain ⟨more, hlook'⟩ := look_some again n free hagain
                      refine ⟨3 + (1 + 3), deeds ++ more ++ [.returned n e], ?_, ?_⟩
                      · rw [Function.iterate_add_apply, harm, hlook']
                        simp [Shared.awaitNext, htake, Signal.listen, hkept, hagain, Scene.note, again, spent]
                      · simp [Shared.awaitNext, htake, Signal.listen, hkept, hagain, spent]
                  | none =>
                      obtain ⟨more, hlook'⟩ := look_none again n free hagain
                      refine ⟨1 + (3 + (1 + 3)), deeds ++ more, ?_, ?_⟩
                      · rw [Function.iterate_add_apply, Function.iterate_add_apply, harm, hlook',
                          Function.iterate_one, arm n hspent]
                        simp [Shared.awaitNext, htake, Signal.listen, hkept, hagain, Scene.note, Scene.setArrivals,
                          again, spent]
                      · simp [Shared.awaitNext, htake, Signal.listen, hkept, hagain, spent]

/-- Go away without a result. -/
def leave (scene : Scene) (seek : Seek) : Scene :=
  ({ scene with shared := scene.shared.forget seek.number }).note [.dropped seek.number]

/-- The next step of somebody who does not wait for a signal. -/
def stepOnce (scene : Scene) (seek : Seek) : Scene × Option Seek :=
  if seek.phase = .listening then (seek.leave scene, none) else seek.step scene

end Seek

/-! ## All together -/

/-- Put another in the place of one in a list, or nobody. -/
def replace (i : Nat) (seek : Option Seek) (seeks : List Seek) : List Seek :=
  seeks.take i ++ (seek.toList ++ seeks.drop (i + 1))

end Handover

/-- Everybody who has to do with the discovery queue. -/
structure Handover where
  scene : Handover.Scene
  callers : List Handover.Caller := []
  consumer : Option Handover.Seek := none
  /-- Whether the consumer is being asked for its result. -/
  polling : Bool := false
  strays : List Handover.Seek := []
  /-- How many numbers were given out. -/
  given : Listener := 0

namespace Handover

/-- Who asks for an endpoint. -/
def seeks (h : Handover) : List Seek := h.consumer.toList ++ h.strays

/-- What can happen next. A move that is not possible changes nothing. -/
inductive Move where
  /-- Somebody begins to add endpoints. -/
  | add (endpoints : List Endpoint)
  /-- Somebody begins another call. -/
  | visit (visit : Visit)
  /-- One step of a caller. -/
  | caller (i : Nat)
  /-- A consumer comes. -/
  | ask
  /-- The consumer is asked for its result. -/
  | poll
  /-- One step of the consumer. -/
  | consumer
  /-- The consumer has to wait for the lock. -/
  | pause
  /-- The consumer goes away. -/
  | drop
  /-- A stray comes. -/
  | stray
  /-- One step of a stray. -/
  | strayStep (i : Nat)
  /-- A stray does not wait for the lock. -/
  | strayLeave (i : Nat)

def move (h : Handover) : Move → Handover
  | .add es => { h with callers := h.callers ++ [.adding es] }
  | .visit visit => { h with callers := h.callers ++ [.calling visit] }
  | .caller i =>
    match h.callers[i]? with
    | some caller =>
      let (scene, caller) := caller.step h.scene
      { h with scene, callers := h.callers.set i caller }
    | none => h
  | .ask =>
    match h.consumer with
    | none => { h with consumer := some { number := h.given }, given := h.given + 1 }
    | some _ => h
  | .poll => if h.consumer.isSome && h.strays.isEmpty then { h with polling := true } else h
  | .consumer =>
    match h.consumer, h.polling with
    | some seek, true =>
      let (scene, consumer) := seek.step h.scene
      { h with scene, consumer, polling := consumer.any (·.phase ≠ .listening) }
    | _, _ => h
  | .pause => if h.consumer.any (·.phase = .knocking) then { h with polling := false } else h
  | .drop =>
    match h.consumer, h.polling with
    | some seek, false => { h with scene := seek.leave h.scene, consumer := none }
    | _, _ => h
  | .stray =>
    if h.polling then h
    else { h with strays := h.strays ++ [{ number := h.given }], given := h.given + 1 }
  | .strayStep i =>
    match h.strays[i]? with
    | some seek =>
      let (scene, seek) := seek.stepOnce h.scene
      { h with scene, strays := replace i seek h.strays }
    | none => h
  | .strayLeave i =>
    match h.strays[i]? with
    | some seek =>
      if seek.phase = .knocking then { h with scene := seek.leave h.scene, strays := replace i none h.strays }
      else h
    | none => h

def run (h : Handover) (moves : List Move) : Handover := moves.foldl move h

/-- Nobody has come yet. A signal may have been kept from before. -/
def start (registry : Registry) (kept : Bool) (s : Shared) : Handover where
  scene := { shared := { s with registry, arrivals := { kept } } }

end BitcoinCrawl.Handover
