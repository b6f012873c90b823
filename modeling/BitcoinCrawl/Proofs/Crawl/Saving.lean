import BitcoinCrawl.Proofs.Crawl.Frame
import BitcoinCrawl.Proofs.Crawl.Orderly
import BitcoinCrawl.Proofs.Registry.History

set_option autoImplicit false

/-! # Saves from close up

In a crawl a save is one step of the publisher and one of the saver. From close up the publisher takes the lock,
reads the records of the good nodes and hands them over, in three steps; then the save waits for its turn, runs
for as long as it takes and gives the lock back, in three more. Between any two of them nodes can be announced,
classified and pinged, everything else about the crawl can change, somebody outside can take the lock, and the
publisher can be stopped for good. A publisher and a saver that nobody interrupts do what they do in a crawl
(`publisher_unbroken`, `saver_unbroken`), so a crawl can do nothing that is not covered here
(`exists_run`). -/

namespace BitcoinCrawl.Saving

/-! ## Saves -/

/-- How far a save is. -/
inductive Phase where
  /-- Waiting for its turn. -/
  | waiting
  | running
  /-- About to give the lock back. -/
  | returned
  deriving DecidableEq

/-- A save that was handed over. -/
structure Job where
  records : List NodeRecord
  phase : Phase := .waiting

/-- What the publisher has got so far for the next save. -/
inductive Grip where
  | empty
  | lock
  /-- The lock, and the records to save. -/
  | loaded (records : List NodeRecord)

/-- The records the publisher has got. -/
def Grip.list : Grip → List (List NodeRecord)
  | loaded records => [records]
  | _ => []

@[simp]
theorem Grip.list_empty : empty.list = [] := rfl

@[simp]
theorem Grip.list_lock : lock.list = [] := rfl

@[simp]
theorem Grip.list_loaded (records : List NodeRecord) : (loaded records).list = [records] := rfl

/-- Whether the publisher has got the lock. -/
def Grip.isLocking : Grip → Bool
  | empty => false
  | _ => true

theorem Grip.isLocking_eq_false {grip : Grip} : grip.isLocking = false ↔ grip = empty := by
  cases grip <;> simp [isLocking]

@[simp]
theorem Grip.isLocking_empty : empty.isLocking = false := rfl

@[simp]
theorem Grip.isLocking_lock : lock.isLocking = true := rfl

@[simp]
theorem Grip.isLocking_loaded (records : List NodeRecord) : (loaded records).isLocking = true := rfl

end Saving

open Saving in
/-- A crawl with its saves from close up. -/
structure Saving where
  crawl : Crawl
  grip : Grip := .empty
  /-- The saves that were handed over and are not over yet. -/
  jobs : List Job := []
  /-- Whether somebody outside the crawl has the lock. -/
  outside : Bool := false
  /-- The records that were read, in order. -/
  read : List (List NodeRecord) := []
  /-- The records that saves began with, in order. -/
  passed : List (List NodeRecord) := []
  /-- The records of the saves that ran to their end, in order. -/
  saved : List (List NodeRecord) := []

namespace Saving

/-! ## Steps -/

def setLock (lock : SaveLock) (s : Saving) : Saving := { s with crawl := { s.crawl with lock } }

def setPublisher (publisher : Publisher) (s : Saving) : Saving := { s with crawl := { s.crawl with publisher } }

/-- Take the lock, which is free. -/
def grasp (s : Saving) : Saving := { s.setLock .taken with grip := .lock }

/-- Read the records of the good nodes. -/
def look (s : Saving) : Saving :=
  let records := s.crawl.shared.registry.goodRecords
  { s with grip := .loaded records, read := s.read ++ [records] }

/-- Hand records over together with the lock. -/
def handOver (records : List NodeRecord) (s : Saving) : Saving :=
  { s.setLock (.saving records) with grip := .empty, jobs := s.jobs ++ [{ records }] }

/-- Start a save in the background, unless somebody has the lock. -/
def stepStoring (world : World) (next : Nat) (s : Saving) : Saving :=
  match s.grip with
  | .empty => if s.crawl.lock = .free then s.grasp else { s with crawl := (s.crawl.stepStoring world next).1 }
  | .lock => s.look
  | .loaded records => (s.handOver records).setPublisher (.ticking next)

/-- Wait for the lock and start the last save, unless there is nothing to save. -/
def stepFlushing (s : Saving) : Saving :=
  match s.grip with
  | .empty => if s.crawl.lock = .free then s.grasp else s
  | .lock => s.look
  | .loaded records =>
    if records.isEmpty then { s with crawl := { s.crawl with lock := .free }.stopPublisher.1, grip := .empty }
    else (s.handOver records).setPublisher .finishing

/-- One step of the publisher. -/
def stepPublisher (world : World) (s : Saving) : Saving :=
  match s.crawl.publisher, world.persistence with
  | .storing next, some _ => s.stepStoring world next
  | .flushing, some _ => s.stepFlushing
  | _, _ => { s with crawl := (s.crawl.stepPublisher world).1 }

/-- The publisher is stopped, wherever it is, and gives back what it has got. -/
def abort (s : Saving) : Saving :=
  let s := if s.grip.isLocking then s.setLock .free else s
  { s.setPublisher .exited with grip := .empty }

/-- What a save does. -/
def store (world : World) (archive : Archive) (records : List NodeRecord) : Archive :=
  match world.persistence with
  | some persistence => (Crawl.save persistence records archive).1
  | none => archive

/-- What a save reports. -/
def storeLog (world : World) (archive : Archive) (records : List NodeRecord) : Log :=
  match world.persistence with
  | some persistence => (Crawl.save persistence records archive).2
  | none => #[]

/-- One step of a save. -/
def stepJob (world : World) (i : Nat) (job : Job) (s : Saving) : Saving :=
  match job.phase with
  | .waiting =>
    { s with jobs := s.jobs.set i { job with phase := .running }, passed := s.passed ++ [job.records] }
  | .running =>
    { s with
      jobs := s.jobs.set i { job with phase := .returned }
      crawl := { s.crawl with
        shared := s.crawl.shared.reportAll (storeLog world s.crawl.archive job.records)
        archive := store world s.crawl.archive job.records }
      saved := s.saved ++ [job.records] }
  | .returned => { s.setLock .free with jobs := s.jobs.eraseIdx i }

/-- What can happen next. A move that is not possible changes nothing. -/
inductive Move where
  | publisher
  /-- One step of a save. -/
  | job (i : Nat)
  /-- A call of the registry. -/
  | call (call : Registry.Call)
  /-- Everything changes that is neither the registry nor a matter of the publisher and its saves. -/
  | world (c : Crawl)
  /-- Somebody outside the crawl takes the lock. -/
  | seize
  /-- They give it back. -/
  | yield
  | abort

def move (world : World) (s : Saving) : Move → Saving
  | .publisher => s.stepPublisher world
  | .job i =>
    match s.jobs[i]? with
    | some job => s.stepJob world i job
    | none => s
  | .call call =>
    { s with crawl := { s.crawl with shared :=
      { s.crawl.shared with registry := s.crawl.shared.registry.perform call } } }
  | .world c =>
    { s with crawl := { c with
      shared := { c.shared with registry := s.crawl.shared.registry }
      publisher := s.crawl.publisher
      lock := s.crawl.lock
      archive := s.crawl.archive } }
  | .seize => if s.crawl.lock = .free then { s.setLock .taken with outside := true } else s
  | .yield => if s.outside then { s.setLock .free with outside := false } else s
  | .abort => s.abort

def run (world : World) (s : Saving) (moves : List Move) : Saving := moves.foldl (move world) s

/-- The calls of the registry among some moves. -/
def callsOf (moves : List Move) : List Registry.Call :=
  moves.filterMap fun | .call call => some call | _ => none

/-- A publisher that has not done anything yet, in a crawl of any other kind. -/
def start (calls : List Registry.Call) (c : Crawl) : Saving where
  crawl := { c with
    shared := { c.shared with registry := .performAll {} calls }
    publisher := .starting
    lock := .free }

theorem run_append (world : World) (s : Saving) (moves more : List Move) :
    s.run world (moves ++ more) = (s.run world moves).run world more :=
  List.foldl_append

theorem callsOf_append (moves more : List Move) : callsOf (moves ++ more) = callsOf moves ++ callsOf more :=
  List.filterMap_append

/-! ## Without interruptions -/

variable {world : World} {s : Saving}

theorem three_steps (world : World) (s : Saving) :
    s.run world (List.replicate 3 .publisher)
      = ((s.stepPublisher world).stepPublisher world).stepPublisher world :=
  rfl

/-- A publisher that starts a save without being interrupted does what it does in a crawl. -/
theorem storing_unbroken {next : Nat} {p : Persistence} (hpublisher : s.crawl.publisher = .storing next)
    (persistence : world.persistence = some p) (free : s.crawl.lock = .free) (hgrip : s.grip = .empty) :
    s.run world (List.replicate 3 .publisher)
      = (s.look.handOver s.crawl.shared.registry.goodRecords).setPublisher (.ticking next) := by
  rw [three_steps]
  simp only [stepPublisher, stepStoring, hpublisher, persistence, free, hgrip, if_true, grasp, look, handOver,
    setLock, setPublisher]

theorem flushing_unbroken {p : Persistence} (hpublisher : s.crawl.publisher = .flushing)
    (persistence : world.persistence = some p) (free : s.crawl.lock = .free) (hgrip : s.grip = .empty) :
    s.run world (List.replicate 3 .publisher)
      = if s.crawl.shared.registry.goodRecords.isEmpty then
          { s.look with crawl := s.crawl.stopPublisher.1, grip := .empty }
        else (s.look.handOver s.crawl.shared.registry.goodRecords).setPublisher .finishing := by
  obtain ⟨crawl, grip, jobs, outside, read, passed, saved⟩ := s
  obtain ⟨shared, queue, feeder, workers, outcomes, aggregator, settled, publisher, snapshots, received, lock,
    archive, dials⟩ := crawl
  cases hpublisher
  cases free
  cases hgrip
  rw [three_steps]
  simp only [stepPublisher, stepFlushing, persistence, if_true, grasp, look, handOver, setLock, setPublisher]

/-- Nobody is in the middle of anything, except that the save which has the lock may be waiting for its turn. -/
structure Quiet (world : World) (s : Saving) : Prop where
  grip : s.grip = .empty
  waiting : ∀ records, s.crawl.lock = .saving records →
    world.persistence.isSome = true ∧ ∃ i : Nat, s.jobs[i]? = some { records }

/-- What a step of the publisher does that has nothing to do with starting a save. -/
structure Uninvolved (c c' : Crawl) : Prop where
  registry : c'.shared.registry = c.shared.registry
  lock : c'.lock = c.lock
  archive : c'.archive = c.archive
  /-- A save is due only if there are good nodes. -/
  due : ∀ next, c'.publisher = .storing next → 0 < c.shared.registry.counts.good
  exited : c.publisher = .exited → c'.publisher = .exited

theorem uninvolved_stepPublisher {c : Crawl} (h : world.persistence = none ∨
    (∀ next, c.publisher ≠ .storing next) ∧ c.publisher ≠ .flushing) :
    Uninvolved c (c.stepPublisher world).1 := by
  have hpublish : c.publish.shared.registry = c.shared.registry :=
    congrArg Outline.registry c.publish_outline
  have hbackstage := c.publish_backstage
  unfold Crawl.stepPublisher
  split
  case h_1 hphase =>
    refine ⟨rfl, rfl, rfl, fun next hnext => ?_, fun hexited => by simp [hphase] at hexited⟩
    dsimp only at hnext
    split_ifs at hnext
  case h_2 next hphase =>
    unfold Crawl.stepTicking
    split_ifs with hstop hdue hgood
    · exact ⟨rfl, rfl, rfl, nofun, fun hexited => by simp [hphase] at hexited⟩
    · exact ⟨hpublish, congrArg Backstage.lock hbackstage, congrArg Backstage.archive hbackstage,
        fun _ _ => hgood, fun hexited => by simp [hphase] at hexited⟩
    · exact ⟨hpublish, congrArg Backstage.lock hbackstage, congrArg Backstage.archive hbackstage,
        nofun, fun hexited => by simp [hphase] at hexited⟩
    · exact ⟨rfl, rfl, rfl, fun _ hnext => by simp [hphase] at hnext, id⟩
  case h_3 next hphase =>
    rcases h with hnone | ⟨hstoring, -⟩
    · simp only [Crawl.stepStoring, hnone]
      exact ⟨rfl, rfl, rfl, nofun, fun hexited => by simp [hphase] at hexited⟩
    · exact absurd hphase (hstoring next)
  case h_4 hphase =>
    unfold Crawl.stepSettling
    split
    · exact ⟨rfl, rfl, rfl, fun _ hnext => by simp [hphase] at hnext, id⟩
    · exact ⟨rfl, rfl, rfl, nofun, fun hexited => by simp [hphase] at hexited⟩
    · exact ⟨rfl, rfl, rfl, nofun, fun hexited => by simp [hphase] at hexited⟩
  case h_5 hphase =>
    rcases h with hnone | ⟨-, hflushing⟩
    · simp only [Crawl.stepFlushing, hnone]
      exact ⟨rfl, rfl, rfl, nofun, fun _ => rfl⟩
    · exact absurd hphase hflushing
  case h_6 hphase =>
    unfold Crawl.stepFinishing
    split
    · exact ⟨rfl, rfl, rfl, fun _ hnext => by simp [hphase] at hnext, id⟩
    · exact ⟨rfl, rfl, rfl, nofun, fun _ => rfl⟩
  case h_7 hphase => exact ⟨rfl, rfl, rfl, fun _ hnext => by simp [hphase] at hnext, id⟩
  case h_8 hphase => exact ⟨rfl, rfl, rfl, fun _ hnext => by simp [hphase] at hnext, id⟩

/-- A publisher that is not interrupted does what it does in a crawl. -/
theorem publisher_unbroken (hquiet : s.Quiet world) :
    ∃ k, (s.run world (List.replicate k .publisher)).crawl = (s.crawl.stepPublisher world).1 ∧
      (s.run world (List.replicate k .publisher)).Quiet world := by
  have hgrip := hquiet.grip
  -- Where no save is started there is nothing to interrupt.
  have hcoarse : s.stepPublisher world = { s with crawl := (s.crawl.stepPublisher world).1 } →
      (s.crawl.stepPublisher world).1.lock = s.crawl.lock →
      ∃ k, (s.run world (List.replicate k .publisher)).crawl = (s.crawl.stepPublisher world).1 ∧
        (s.run world (List.replicate k .publisher)).Quiet world := by
    intro hstep hlock
    refine ⟨1, ?_⟩
    show (s.stepPublisher world).crawl = _ ∧ (s.stepPublisher world).Quiet world
    rw [hstep]
    exact ⟨rfl, hgrip, fun records hsaving => hquiet.waiting records (hlock.symm.trans hsaving)⟩
  have hhanded : ∀ records publisher, world.persistence.isSome = true →
      ((s.look.handOver records).setPublisher publisher).Quiet world := by
    refine fun records publisher hsome => ⟨rfl, fun records' hsaving => ⟨hsome, s.jobs.length, ?_⟩⟩
    obtain rfl : records = records' := SaveLock.saving.inj hsaving
    simp [setPublisher, handOver, look, setLock]
  cases hpersistence : world.persistence with
  | none =>
      exact hcoarse (by simp [stepPublisher, hpersistence]) (uninvolved_stepPublisher (.inl hpersistence)).lock
  | some p =>
      have hsome : world.persistence.isSome = true := by rw [hpersistence]; rfl
      cases hpublisher : s.crawl.publisher with
      | storing next =>
          by_cases free : s.crawl.lock = .free
          · refine ⟨3, ?_⟩
            rw [storing_unbroken hpublisher hpersistence free hgrip]
            refine ⟨?_, hhanded _ _ hsome⟩
            simp [Crawl.stepPublisher, Crawl.stepStoring, hpublisher, hpersistence, free, handOver, look, setLock,
              setPublisher]
          · refine hcoarse ?_ ?_
            · simp [stepPublisher, stepStoring, Crawl.stepPublisher, hpublisher, hpersistence, free, hgrip]
            · simp only [Crawl.stepPublisher, hpublisher, Crawl.stepStoring, hpersistence]
              rfl
      | flushing =>
          by_cases free : s.crawl.lock = .free
          · refine ⟨3, ?_⟩
            rw [flushing_unbroken hpublisher hpersistence free hgrip]
            by_cases hnone : s.crawl.shared.registry.goodRecords.isEmpty = true
            · rw [if_pos hnone]
              refine ⟨?_, rfl, fun records hsaving => ?_⟩
              · simp [Crawl.stepPublisher, Crawl.stepFlushing, hpublisher, hpersistence, free, hnone]
              · cases free.symm.trans hsaving
            · rw [if_neg hnone]
              refine ⟨?_, hhanded _ _ hsome⟩
              simp [Crawl.stepPublisher, Crawl.stepFlushing, hpublisher, hpersistence, free, hnone, handOver, look,
                setLock, setPublisher]
          · refine ⟨0, ?_, hquiet⟩
            show s.crawl = _
            simp only [Crawl.stepPublisher, hpublisher, Crawl.stepFlushing, hpersistence]
      | _ =>
          exact hcoarse (by simp [stepPublisher, hpublisher])
            (uninvolved_stepPublisher (.inr (by simp [hpublisher]))).lock

theorem move_job {i : Nat} {job : Job} (hi : s.jobs[i]? = some job) :
    s.move world (.job i) = s.stepJob world i job := by
  simp only [move, hi]

/-- A save that is not interrupted does what it does in a crawl. -/
theorem saver_unbroken {i : Nat} {records : List NodeRecord} {p : Persistence}
    (persistence : world.persistence = some p) (saving : s.crawl.lock = .saving records)
    (hi : s.jobs[i]? = some { records }) :
    (s.run world (List.replicate 3 (.job i))).crawl = (s.crawl.stepSaver world).1 ∧
      (s.run world (List.replicate 3 (.job i))).grip = s.grip := by
  have hlt := (List.getElem?_eq_some_iff.mp hi).1
  have hthree : s.run world (List.replicate 3 (.job i))
      = ((s.move world (.job i)).move world (.job i)).move world (.job i) := rfl
  let begun : Saving :=
    { s with jobs := s.jobs.set i { records, phase := .running }, passed := s.passed ++ [records] }
  have hbegun : begun.jobs[i]? = some { records, phase := .running } := List.getElem?_set_self hlt
  let done := begun.stepJob world i { records, phase := .running }
  have hdone : done.jobs[i]? = some { records, phase := .returned } := by
    have hlt' := (List.getElem?_eq_some_iff.mp hbegun).1
    exact List.getElem?_set_self hlt'
  rw [hthree, move_job hi, show s.stepJob world i { records } = begun from rfl, move_job hbegun,
    show begun.stepJob world i { records, phase := .running } = done from rfl, move_job hdone]
  simp only [stepJob, setLock, done, begun, Crawl.stepSaver, persistence, saving, store, storeLog, and_self]

/-! ## Whole crawls -/

theorem run_calls (world : World) (s : Saving) (calls : List Registry.Call) :
    s.run world (calls.map .call)
      = { s with crawl := { s.crawl with shared :=
          { s.crawl.shared with registry := s.crawl.shared.registry.performAll calls } } } := by
  induction calls generalizing s with
  | nil => rfl
  | cons call rest ih => exact ih (s.move world (.call call))

/-- The aggregator has no part in saves. -/
theorem stepAggregator_saves (c : Crawl) :
    c.stepAggregator.1.publisher = c.publisher ∧ c.stepAggregator.1.lock = c.lock ∧
      c.stepAggregator.1.archive = c.archive := by
  unfold Crawl.stepAggregator
  split
  case h_2 =>
    split
    · exact ⟨rfl, rfl, rfl⟩
    · split_ifs <;> exact ⟨rfl, rfl, rfl⟩
  all_goals exact ⟨rfl, rfl, rfl⟩

/-- What others do in a crawl can happen in between. -/
theorem exists_run_elsewhere {c : Crawl} (hquiet : s.Quiet world)
    (hregistry : ∃ calls, c.shared.registry = s.crawl.shared.registry.performAll calls)
    (hpublisher : c.publisher = s.crawl.publisher) (hlock : c.lock = s.crawl.lock)
    (harchive : c.archive = s.crawl.archive) :
    ∃ moves, (s.run world moves).crawl = c ∧ (s.run world moves).Quiet world := by
  obtain ⟨calls, hcalls⟩ := hregistry
  refine ⟨calls.map .call ++ [.world c], ?_⟩
  have hrun : s.run world (calls.map .call ++ [.world c]) = { s with crawl := c } := by
    rw [run_append, run_calls]
    show { s with crawl := { c with
      shared := { c.shared with registry := s.crawl.shared.registry.performAll calls }
      publisher := s.crawl.publisher, lock := s.crawl.lock, archive := s.crawl.archive } } = _
    rw [← hcalls, ← hpublisher, ← hlock, ← harchive]
  rw [hrun]
  exact ⟨rfl, hquiet.grip, fun records hsaving => hquiet.waiting records (hlock.symm.trans hsaving)⟩

theorem exists_run_event (hquiet : s.Quiet world) (event : Crawl.Event) :
    ∃ moves, (s.run world moves).crawl = s.crawl.apply world event ∧ (s.run world moves).Quiet world := by
  have hregistry := (Crawl.apply_outline world s.crawl event).registry
  have helsewhere : (s.crawl.apply world event).backstage = s.crawl.backstage →
      ∃ moves, (s.run world moves).crawl = s.crawl.apply world event ∧ (s.run world moves).Quiet world :=
    fun hsame => exists_run_elsewhere hquiet hregistry (congrArg Backstage.publisher hsame)
      (congrArg Backstage.lock hsame) (congrArg Backstage.archive hsame)
  cases event with
  | cancel => exact helsewhere rfl
  | pass t => exact helsewhere rfl
  | act actor =>
      cases actor with
      | feeder => exact helsewhere (Crawl.fed_stepFeeder s.crawl).backstage
      | worker i => exact helsewhere (Crawl.placed_stepWorker world i s.crawl).backstage
      | consumer => exact helsewhere s.crawl.stepConsumer_backstage
      | aggregator =>
          obtain ⟨hpublisher, hlock, harchive⟩ := stepAggregator_saves s.crawl
          exact exists_run_elsewhere hquiet hregistry hpublisher hlock harchive
      | publisher =>
          obtain ⟨k, hk⟩ := publisher_unbroken hquiet
          exact ⟨_, hk⟩
      | saver =>
          show ∃ moves, (s.run world moves).crawl = (s.crawl.stepSaver world).1 ∧ _
          cases hlock : s.crawl.lock with
          | saving records =>
              obtain ⟨hsome, i, hi⟩ := hquiet.waiting records hlock
              obtain ⟨p, hp⟩ := Option.isSome_iff_exists.mp hsome
              obtain ⟨hcrawl, hgrip⟩ := saver_unbroken hp hlock hi
              refine ⟨_, hcrawl, hgrip.trans hquiet.grip, fun records' hsaving => ?_⟩
              rw [hcrawl] at hsaving
              simp [Crawl.stepSaver, hp, hlock] at hsaving
          | _ => exact ⟨[], by simp [run, Crawl.stepSaver, hlock], hquiet⟩

/-- All that a crawl can do is among what can happen here. -/
theorem exists_run (hquiet : s.Quiet world) (events : List Crawl.Event) :
    ∃ moves, (s.run world moves).crawl = s.crawl.run world events ∧ (s.run world moves).Quiet world := by
  induction events generalizing s with
  | nil => exact ⟨[], rfl, hquiet⟩
  | cons event rest ih =>
      obtain ⟨first, hfirst, hquiet'⟩ := exists_run_event hquiet event
      obtain ⟨more, hmore, hquiet''⟩ := ih hquiet'
      refine ⟨first ++ more, ?_⟩
      rw [run_append]
      exact ⟨hmore.trans (by rw [hfirst]; rfl), hquiet''⟩

end BitcoinCrawl.Saving
