import BitcoinCrawl.Crawl.Step

set_option autoImplicit false

/-! # Running a crawl on its clock

One particular order of steps: the tasks are asked in rounds, each goes on until it waits, and when none of
them can go on the clock jumps to the next instant at which one could. -/

namespace BitcoinCrawl.Crawl

/-- Progress within a round. -/
structure Round where
  crawl : Crawl
  /-- Tasks still to be asked. -/
  rest : List Actor
  /-- Whether anybody has moved. -/
  moved : Bool := false
  /-- When somebody who waits could go on. -/
  wake : Option Nat := none

/-- Whether an instant comes before a limit, if there is one. -/
def isBefore (t : Nat) (limit : Option Nat) : Bool := limit.all (t < ·)

/-- Go through rounds until nobody can go on before the limit. -/
def rounds (world : World) (actors : List Actor) (limit : Option Nat) : Nat → Round → Crawl
  | 0, r => r.crawl
  | fuel + 1, r =>
    match r.rest with
    | actor :: rest =>
      let { crawl, rest := _, moved, wake } := r
      match crawl.step world actor with
      | (crawl, .moved) =>
        rounds world actors limit fuel { crawl, rest := actor :: rest, moved := true, wake }
      | (crawl, .blocked t) =>
        rounds world actors limit fuel { crawl, rest, moved, wake := earlier wake t }
    | [] =>
      if r.moved then rounds world actors limit fuel { crawl := r.crawl, rest := actors }
      else
        match r.wake with
        | none => r.crawl
        | some t =>
          if isBefore t limit then
            rounds world actors limit fuel { crawl := r.crawl.passTo t, rest := actors }
          else r.crawl

/-! ## Enough fuel -/

/-- Number of endpoints that can come up, of the events behind them and of the bytes these carry. -/
def content (world : World) (c : Crawl) : Nat :=
  let visiting (worker : Worker) : Nat :=
    match worker.phase with
    | .serving session => Session.weight session.line
    | _ => 0
  world.remotes.foldl (fun n entry => n + 1 + entry.2.weight) 0 +
    c.shared.registry.known.size + c.queue.items.length +
    c.workers.foldl (fun n worker => n + 1 + visiting worker) 0

/-- A bound on the number of steps up to a limit. Every step is one of a bounded number that an endpoint, a
    part of a script or a tick can cause, and after each of them every task is asked once more. -/
def effort (world : World) (actors : List Actor) (limit : Option Nat) (c : Crawl) : Nat :=
  let ticks := limit.getD 0 / max world.config.snapshotInterval 1
  (100 + 40 * content world c + 20 * ticks) * (actors.length + 8)

/-! ## Runs -/

/-- Run until nobody can go on before the limit. A limit that has been reached leaves time for nothing. -/
def settle (world : World) (actors : List Actor) (limit : Option Nat) (c : Crawl) : Crawl :=
  if isBefore c.shared.now limit then
    rounds world actors limit (c.effort world actors limit) { crawl := c, rest := actors }
  else c

/-- Run up to an instant. What is due at that very instant does not happen any more. -/
def runUntil (world : World) (actors : List Actor) (t : Nat) (c : Crawl) : Crawl :=
  (c.settle world actors (some t)).passTo t

end BitcoinCrawl.Crawl
