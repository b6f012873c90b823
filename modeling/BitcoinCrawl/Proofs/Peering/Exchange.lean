import BitcoinCrawl.Proofs.Peering.Acceptance
import BitcoinCrawl.Proofs.Transport.Outlook

set_option autoImplicit false

/-! # Handshakes over a link

A handshake that runs over a link step by step is at every moment where `Handshake.converse` gets with the
results received so far (`Exchange.Follows`), so what is known of conversations holds of it
(`Exchange.Matches`). -/

namespace BitcoinCrawl

namespace Handshake

/-- What a step of a handshake does if writes succeed. -/
inductive Steps (now : Nat) (h : Handshake) (link : Link) : Progress → Prop
  | writes (m : Message) (rest : List Message) (log : Log) (next : h.outbox = m :: rest) :
      Steps now h link
        { handshake := { h with outbox := rest }, link := (link.send m).1, log, outcome := .moved }
  | done (log : Log) (written : h.outbox = []) (complete : h.stage = .complete) :
      Steps now h link { handshake := h, link, log, outcome := .finished (.ok ()) }
  | receives (link' : Link) (r : Reader.Result) (written : h.outbox = []) (incomplete : h.stage ≠ .complete)
      (ready : link.receive now = (link', .ready r)) :
      Steps now h link ((h.receive (r.mapError .transport)).proceed link')
  | waits (link' : Link) (wake : Option Nat) (written : h.outbox = []) (incomplete : h.stage ≠ .complete)
      (unready : link.receive now = (link', .waiting wake)) :
      Steps now h link { handshake := h, link := link', outcome := .waiting wake }

theorem step_steps {link : Link} (hw : link.writeFault = none) (now : Nat) (h : Handshake) :
    Steps now h link (h.step now link) := by
  unfold step
  cases hout : h.outbox with
  | cons m rest =>
      simp only [Link.send_written hw]
      have hwrites : Steps now h link _ := .writes m rest (h.wrote m).log hout
      rw [Link.send_written hw] at hwrites
      simp only [Reaction.proceed, wrote, hout, List.tail_cons]
      exact hwrites
  | nil =>
      by_cases hstage : h.stage = .complete
      · simp only [if_pos hstage]
        exact .done _ hout hstage
      · simp only [if_neg hstage]
        cases hreceive : link.receive now with
        | mk link' poll =>
            cases poll with
            | ready r => exact .receives link' r hout hstage hreceive
            | waiting wake => exact .waits link' wake hout hstage hreceive

end Handshake

/-- A handshake that runs over a link, with what it has received so far. -/
structure Exchange where
  handshake : Handshake
  link : Link
  received : List Received := []
  /-- How it ended, if it did. -/
  result : Option (Except ConnectionFault Unit) := none

namespace Exchange

/-- What a step of the handshake takes from the link. -/
def takes (now : Nat) (x : Exchange) : List Received :=
  if x.handshake.outbox.isEmpty && x.handshake.stage != .complete then
    match (x.link.receive now).2 with
    | .ready r => [r.mapError .transport]
    | .waiting _ => []
  else []

/-- One step of the handshake, unless it has ended. -/
def step (x : Exchange) (now : Nat) : Exchange :=
  if x.result.isSome then x
  else
    let p := x.handshake.step now x.link
    { handshake := p.handshake, link := p.link, received := x.received ++ x.takes now
      result := match p.outcome with
        | .finished result => some result
        | .moved | .waiting _ => none }

/-- Steps at some instants, one after the other. -/
def run (x : Exchange) (instants : List Nat) : Exchange := instants.foldl step x

theorem run_concat (x : Exchange) (instants : List Nat) (now : Nat) :
    x.run (instants ++ [now]) = (x.run instants).step now := List.foldl_append

theorem step_of_ended {x : Exchange} (h : x.result.isSome) (now : Nat) : x.step now = x := if_pos h

/-- What one step does if writes succeed. -/
inductive Stepped (now : Nat) (x : Exchange) : Exchange → Prop
  | ended (settled : x.result.isSome) : Stepped now x x
  | writes (m : Message) (rest : List Message) (running : x.result = none)
      (next : x.handshake.outbox = m :: rest) :
      Stepped now x { x with handshake := { x.handshake with outbox := rest }, link := (x.link.send m).1 }
  | done (running : x.result = none) (written : x.handshake.outbox = [])
      (complete : x.handshake.stage = .complete) :
      Stepped now x { x with result := some (.ok ()) }
  | receives (link : Link) (r : Reader.Result) (running : x.result = none) (written : x.handshake.outbox = [])
      (incomplete : x.handshake.stage ≠ .complete) (ready : x.link.receive now = (link, .ready r)) :
      Stepped now x
        { handshake := (x.handshake.receive (r.mapError .transport)).handshake, link
          received := x.received ++ [r.mapError .transport]
          result := (x.handshake.receive (r.mapError .transport)).fault.map .error }
  | waits (link : Link) (wake : Option Nat) (running : x.result = none) (written : x.handshake.outbox = [])
      (incomplete : x.handshake.stage ≠ .complete) (unready : x.link.receive now = (link, .waiting wake)) :
      Stepped now x { x with link }

theorem step_stepped {x : Exchange} (hw : x.link.writeFault = none) (now : Nat) : Stepped now x (x.step now) := by
  unfold Exchange.step
  cases hresult : x.result with
  | some result =>
      rw [Option.isSome_some, if_pos rfl]
      exact .ended (Option.isSome_of_eq_some hresult)
  | none =>
      have hsteps := Handshake.step_steps hw now x.handshake
      simp only [Option.isSome_none, Bool.false_eq_true, if_false, takes]
      generalize x.handshake.step now x.link = p at hsteps
      cases hsteps with
      | writes m rest log hnext =>
          have htakes : x.handshake.outbox.isEmpty = false := by rw [hnext]; rfl
          simp only [htakes, Bool.false_and, Bool.false_eq_true, if_false, List.append_nil]
          rw [← hresult]
          exact .writes m rest hresult hnext
      | done log hout hstage =>
          simp only [hstage, bne_self_eq_false, Bool.and_false, Bool.false_eq_true, if_false, List.append_nil]
          exact .done hresult hout hstage
      | receives link r hout hstage hready =>
          have htakes : (x.handshake.outbox.isEmpty && x.handshake.stage != .complete) = true := by
            rw [hout, bne_iff_ne.mpr hstage]
            rfl
          simp only [htakes, if_true, hready, Handshake.Reaction.proceed]
          have hreceives := Stepped.receives link r hresult hout hstage hready
          cases hfault : (x.handshake.receive (r.mapError .transport)).fault <;> rw [hfault] at hreceives <;>
            exact hreceives
      | waits link wake hout hstage hunready =>
          simp only [hunready, ite_self, List.append_nil]
          rw [← hresult]
          exact .waits link wake hresult hout hstage hunready

/-- A handshake that began as `h` and is where its conversation is. -/
structure Follows (h : Handshake) (magic : Magic) (x : Exchange) : Prop where
  writes : x.link.writeFault = none
  magic : x.link.magic = magic
  ended : ∀ result, x.result = some result → x.handshake.outbox = []
  converse : ∃ written, x.link.sent.toList = written.map (Frame.encode x.link.magic) ∧
    ∀ rs, h.converse (x.received ++ rs) = match x.result with
      | none => (x.handshake.converse rs).behind written
      | some result => ⟨x.handshake, written, rs, some result⟩

theorem Follows.step {h : Handshake} {magic : Magic} {x : Exchange} (hf : x.Follows h magic) (now : Nat) :
    (x.step now).Follows h magic := by
  obtain ⟨written, hsent, hconverse⟩ := hf.converse
  have hstepped := step_stepped hf.writes now
  generalize x.step now = x' at hstepped
  cases hstepped with
  | ended => exact hf
  | writes m rest hopen hnext =>
      simp only [hopen] at hconverse
      rw [Link.send_written hf.writes]
      refine ⟨hf.writes, hf.magic, by simp [hopen], written ++ [m], ?_, fun rs => ?_⟩
      · rw [Array.toList_push, hsent, List.map_append]
        rfl
      · rw [hconverse, Handshake.converse_flushed, Handshake.Conversation.behind_behind, hnext]
        simp only [hopen]
        rw [Handshake.converse_flushed { x.handshake with outbox := rest },
          Handshake.Conversation.behind_behind, List.append_assoc]
        rfl
  | done hopen hout hstage =>
      simp only [hopen] at hconverse
      refine ⟨hf.writes, hf.magic, fun _ _ => hout, written, hsent, fun rs => ?_⟩
      rw [hconverse, Handshake.converse_complete hstage, Handshake.flushed_eq hout, hout,
        Handshake.Conversation.behind, List.append_nil]
  | receives link' r hopen hout hstage hready =>
      simp only [hopen] at hconverse
      obtain rfl : (x.link.receive now).1 = link' := by rw [hready]
      have hflushed := Handshake.flushed_eq hout
      cases hfault : (x.handshake.receive (r.mapError .transport)).fault with
      | some fault =>
          refine ⟨hf.writes, hf.magic, fun _ _ => ?_, written, hsent, fun rs => ?_⟩
          · rw [Handshake.receive_failed hfault, hout]
          · rw [← hflushed] at hfault
            rw [List.append_assoc, hconverse, List.singleton_append, Handshake.converse_fault hstage hfault,
              hflushed, Handshake.Conversation.behind, hout, List.append_nil]
            rfl
      | none =>
          refine ⟨hf.writes, hf.magic, by simp, written, hsent, fun rs => ?_⟩
          rw [← hflushed] at hfault
          rw [List.append_assoc, hconverse, List.singleton_append, Handshake.converse_cons hstage hfault, hflushed,
            hout, Handshake.Conversation.behind_nil]
          rfl
  | waits link' wake hopen hout hstage hunready =>
      obtain rfl : (x.link.receive now).1 = link' := by rw [hunready]
      exact ⟨hf.writes, hf.magic, hf.ended, written, hsent, hconverse⟩

theorem Follows.run {h : Handshake} {magic : Magic} {x : Exchange} (hf : x.Follows h magic)
    (instants : List Nat) : (x.run instants).Follows h magic := by
  induction instants generalizing x with
  | nil => exact hf
  | cons now later ih => exact ih (hf.step now)

theorem run_ended {x : Exchange} {result : Except ConnectionFault Unit} (hended : x.result = some result)
    (instants : List Nat) : x.run instants = x := by
  induction instants with
  | nil => rfl
  | cons now later ih =>
      rw [run, List.foldl_cons, step_of_ended (Option.isSome_of_eq_some hended)]
      exact ih

/-- A handshake that has nothing to wait for ends as soon as its outbox is written. -/
theorem run_settles {x : Exchange} (hw : x.link.writeFault = none) (hstage : x.handshake.stage = .complete)
    (hopen : x.result = none) (instants : List Nat) (henough : x.handshake.outbox.length < instants.length) :
    (x.run instants).result = some (.ok ()) := by
  induction instants generalizing x with
  | nil => cases henough
  | cons now later ih =>
      show ((x.step now).run later).result = _
      have hstepped := step_stepped hw now
      generalize x.step now = x' at hstepped
      cases hstepped with
      | ended hended =>
          rw [hopen] at hended
          cases hended
      | writes m rest _ hnext =>
          rw [Link.send_written hw]
          rw [hnext, List.length_cons, List.length_cons] at henough
          exact ih hw hstage hopen (Nat.lt_of_succ_lt_succ henough)
      | done => rw [run_ended rfl]
      | receives _ _ _ _ hincomplete => exact absurd hstage hincomplete
      | waits _ _ _ _ hincomplete => exact absurd hstage hincomplete

/-- A handshake on a link beside the conversation it has had. -/
structure Matches (h : Handshake) (x : Exchange) : Prop where
  /-- It has not asked for more than it needed. -/
  unread : (h.converse x.received).unread = []
  ended : ∀ result, x.result = some result → (h.converse x.received).result = some result
  peer : (h.converse x.received).handshake.peer = x.handshake.peer
  /-- What is written is what is said, up to what is still in the outbox. -/
  sent : x.link.sent.toList ++ x.handshake.outbox.map (Frame.encode x.link.magic)
    = (h.converse x.received).sent.map (Frame.encode x.link.magic)
  /-- A settled handshake ends once its outbox is written. -/
  settled : ∀ result, (h.converse x.received).result = some result → ∀ later : List Nat,
    x.handshake.outbox.length < later.length → (x.run later).result = some result

theorem Follows.matches {h : Handshake} {magic : Magic} {x : Exchange} (hf : x.Follows h magic) :
    x.Matches h := by
  obtain ⟨written, hsent, hconverse⟩ := hf.converse
  have hnow := hconverse []
  rw [List.append_nil] at hnow
  cases hresult : x.result with
  | some result =>
      have hout := hf.ended result hresult
      simp only [hresult] at hnow
      refine ⟨by rw [hnow], fun _ h => ?_, by rw [hnow], ?_, fun result' hc later _ => ?_⟩
      · rw [hnow, ← h, hresult]
      · rw [hnow, hout, List.map_nil, List.append_nil]
        exact hsent
      · rw [hnow] at hc
        rw [run_ended hresult, hresult]
        exact hc
  | none =>
      simp only [hresult] at hnow
      refine ⟨by rw [hnow]; rfl, fun _ h => ?_, by rw [hnow]; rfl, ?_, fun result' hc later henough => ?_⟩
      · exact nomatch hresult.symm.trans h
      · rw [hnow, hsent, ← List.map_append]
        rfl
      · rw [hnow] at hc
        by_cases hstage : x.handshake.stage = .complete
        · rw [Handshake.converse_complete hstage] at hc
          rw [← hc]
          exact run_settles hf.writes hstage hresult later henough
        · simp only [Handshake.converse, Handshake.Conversation.behind, if_neg hstage] at hc
          cases hc

theorem Follows.stage {h : Handshake} {magic : Magic} {x : Exchange} (hf : x.Follows h magic) :
    (h.converse x.received).handshake.stage = x.handshake.stage := by
  obtain ⟨written, -, hconverse⟩ := hf.converse
  have hnow := hconverse []
  rw [List.append_nil] at hnow
  rw [hnow]
  cases x.result <;> rfl

/-- A handshake that has not ended and is not complete has not settled its conversation. -/
theorem Follows.unsettled {h : Handshake} {magic : Magic} {x : Exchange} (hf : x.Follows h magic)
    (hopen : x.result = none) (hstage : x.handshake.stage ≠ .complete) :
    (h.converse x.received).result = none := by
  obtain ⟨written, -, hconverse⟩ := hf.converse
  have hnow := hconverse []
  rw [List.append_nil] at hnow
  rw [hnow, hopen]
  exact if_neg hstage

/-- A handshake over a link that nothing was written to is where its conversation begins. -/
theorem follows_begin {link : Link} (hw : link.writeFault = none) (hsent : link.sent = #[]) (h : Handshake) :
    ({ handshake := h, link } : Exchange).Follows h link.magic :=
  ⟨hw, rfl, fun _ hended => (nomatch hended), [], by rw [hsent]; rfl, fun _ => rfl⟩

end Exchange

end BitcoinCrawl
