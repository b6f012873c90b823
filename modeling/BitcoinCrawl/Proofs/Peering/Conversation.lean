import BitcoinCrawl.Peering.Handshake
import Mathlib.Tactic.SplitIfs

set_option autoImplicit false

/-! # Conversations

`Handshake.converse` is a handshake as a function of what it receives, with its writes succeeding. It goes on
from where it stopped when more comes (`converse_append`), so a handshake that runs over a link can be
compared with it at any moment (`Exchange.Follows`). -/

namespace BitcoinCrawl

namespace Handshake

/-- A handshake behind some received results. -/
structure Conversation where
  handshake : Handshake
  /-- Everything written, in order. -/
  sent : List Message
  /-- The results that were not asked for. -/
  unread : List Received
  result : Option (Except ConnectionFault Unit)

/-- The same conversation with something written before it. -/
def Conversation.behind (c : Conversation) (sent : List Message) : Conversation :=
  { c with sent := sent ++ c.sent }

/-- The handshake with its outbox written. -/
def flushed (h : Handshake) : Handshake := { h with outbox := [] }

/-- A handshake that gets these results, one after the other, as long as it asks for one. -/
def converse (h : Handshake) : List Received → Conversation
  | [] => ⟨h.flushed, h.outbox, [], if h.stage = .complete then some (.ok ()) else none⟩
  | r :: rest =>
    if h.stage = .complete then ⟨h.flushed, h.outbox, r :: rest, some (.ok ())⟩
    else
      let reaction := h.flushed.receive r
      match reaction.fault with
      | some fault => ⟨reaction.handshake, h.outbox, rest, some (.error fault)⟩
      | none => (reaction.handshake.converse rest).behind h.outbox

variable {h : Handshake} {r : Received} {rs : List Received}

@[simp] theorem Conversation.behind_nil (c : Conversation) : c.behind [] = c := rfl

theorem Conversation.behind_behind (c : Conversation) (first second : List Message) :
    (c.behind second).behind first = c.behind (first ++ second) := by
  simp only [behind, List.append_assoc]

theorem converse_complete (hstage : h.stage = .complete) (rs : List Received) :
    h.converse rs = ⟨h.flushed, h.outbox, rs, some (.ok ())⟩ := by
  cases rs with
  | nil => rw [converse, if_pos hstage]
  | cons r rest => rw [converse, if_pos hstage]

theorem converse_fault {fault : ConnectionFault} (hstage : h.stage ≠ .complete)
    (hfault : (h.flushed.receive r).fault = some fault) (rest : List Received) :
    h.converse (r :: rest)
      = ⟨(h.flushed.receive r).handshake, h.outbox, rest, some (.error fault)⟩ := by
  simp only [converse, if_neg hstage, hfault]

theorem converse_cons (hstage : h.stage ≠ .complete) (hfault : (h.flushed.receive r).fault = none)
    (rest : List Received) :
    h.converse (r :: rest) = ((h.flushed.receive r).handshake.converse rest).behind h.outbox := by
  simp only [converse, if_neg hstage, hfault]

theorem flushed_eq (hout : h.outbox = []) : h.flushed = h := by
  rw [flushed, ← hout]

/-- A result that changes nothing is passed over. -/
theorem converse_skip {log : Log} (hstage : h.stage ≠ .complete) (hout : h.outbox = [])
    (hreceive : h.receive r = { handshake := h, log }) (rest : List Received) :
    h.converse (r :: rest) = h.converse rest := by
  rw [← flushed_eq hout] at hreceive
  rw [converse_cons hstage (by rw [hreceive]), hreceive, flushed_eq hout, hout, Conversation.behind_nil]

/-- A result that ends the handshake changes nothing else. -/
theorem receive_failed {fault : ConnectionFault} (hfault : (h.receive r).fault = some fault) :
    (h.receive r).handshake = h := by
  cases r with
  | error fault =>
      unfold receive
      dsimp only
      split_ifs <;> rfl
  | ok m =>
      cases m with
      | version v =>
          simp only [receive, onMessage, onVersion] at hfault ⊢
          split_ifs at hfault ⊢ <;> rfl
      | verack => cases hfault
      | _ => rfl

/-- What is in the outbox is only written earlier than the rest. -/
theorem converse_flushed (h : Handshake) (rs : List Received) :
    h.converse rs = (h.flushed.converse rs).behind h.outbox := by
  cases rs with
  | nil =>
      simp only [converse, Conversation.behind, flushed, List.append_nil]
      rfl
  | cons r rest =>
      by_cases hstage : h.stage = .complete
      · rw [converse_complete hstage, converse_complete (h := h.flushed) hstage]
        simp [Conversation.behind, flushed]
      · cases hfault : (h.flushed.receive r).fault with
        | some fault =>
            rw [converse_fault hstage hfault, converse_fault (h := h.flushed) hstage hfault]
            simp [Conversation.behind, flushed]
        | none =>
            rw [converse_cons hstage hfault, converse_cons (h := h.flushed) hstage hfault]
            simp [Conversation.behind, flushed]

/-- A conversation that is not over has used up all results and written its outbox. -/
theorem converse_open (hopen : (h.converse rs).result = none) :
    (h.converse rs).unread = [] ∧ (h.converse rs).handshake.outbox = [] ∧
      (h.converse rs).handshake.stage ≠ .complete := by
  induction rs generalizing h with
  | nil =>
      refine ⟨rfl, rfl, fun hstage => ?_⟩
      rw [converse_complete (h := h) hstage] at hopen
      cases hopen
  | cons r rest ih =>
      by_cases hstage : h.stage = .complete
      · rw [converse_complete hstage] at hopen
        cases hopen
      · cases hfault : (h.flushed.receive r).fault with
        | some fault =>
            rw [converse_fault hstage hfault] at hopen
            cases hopen
        | none =>
            rw [converse_cons hstage hfault] at hopen ⊢
            exact ih hopen

/-- A conversation that succeeds is complete. -/
theorem converse_ok_stage (hok : (h.converse rs).result = some (.ok ())) :
    (h.converse rs).handshake.stage = .complete := by
  induction rs generalizing h with
  | nil =>
      by_cases hstage : h.stage = .complete
      · exact hstage
      · simp only [converse, if_neg hstage] at hok
        cases hok
  | cons r rest ih =>
      by_cases hstage : h.stage = .complete
      · rw [converse_complete hstage]
        exact hstage
      · cases hfault : (h.flushed.receive r).fault with
        | some fault =>
            rw [converse_fault hstage hfault] at hok
            cases hok
        | none =>
            rw [converse_cons hstage hfault] at hok ⊢
            exact ih hok

/-- A conversation that is not over goes on where it stopped. -/
theorem converse_append_open (hopen : (h.converse rs).result = none) (more : List Received) :
    h.converse (rs ++ more)
      = ((h.converse rs).handshake.converse more).behind (h.converse rs).sent := by
  induction rs generalizing h with
  | nil => exact converse_flushed h more
  | cons r rest ih =>
      by_cases hstage : h.stage = .complete
      · rw [converse_complete hstage] at hopen
        cases hopen
      · rw [List.cons_append]
        cases hfault : (h.flushed.receive r).fault with
        | some fault =>
            rw [converse_fault hstage hfault] at hopen
            cases hopen
        | none =>
            rw [converse_cons hstage hfault] at hopen ⊢
            rw [converse_cons hstage hfault, ih hopen, Conversation.behind_behind]
            rfl

/-- One that is over leaves what comes later. -/
theorem converse_append_over {result : Except ConnectionFault Unit}
    (hover : (h.converse rs).result = some result) (more : List Received) :
    h.converse (rs ++ more) = { h.converse rs with unread := (h.converse rs).unread ++ more } := by
  induction rs generalizing h with
  | nil =>
      have hstage : h.stage = .complete := by
        refine Decidable.byContradiction fun hstage => ?_
        simp only [converse, if_neg hstage] at hover
        cases hover
      rw [List.nil_append, converse_complete hstage, converse_complete hstage]
      rfl
  | cons r rest ih =>
      rw [List.cons_append]
      by_cases hstage : h.stage = .complete
      · rw [converse_complete hstage, converse_complete hstage, List.cons_append]
      · cases hfault : (h.flushed.receive r).fault with
        | some fault => rw [converse_fault hstage hfault, converse_fault hstage hfault]
        | none =>
            rw [converse_cons hstage hfault] at hover ⊢
            rw [converse_cons hstage hfault, ih hover]
            rfl

end Handshake

end BitcoinCrawl
