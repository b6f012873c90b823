import BitcoinCrawl.Proofs.Peering.Exchange

set_option autoImplicit false

/-! # How a handshake will end

What a link will bring settles how a handshake over it ends if everything it writes is taken: as the
conversation with that (`Handshake.foretold`). Steps of the handshake do not change it, and an end is the one
foretold (`Handshake.step_foretells`). -/

namespace BitcoinCrawl.Handshake

/-- The conversation that a handshake will have had over a link once the peer has heard what is in the
    outbox. -/
def foretold (h : Handshake) (link : Link) : Conversation :=
  h.converse { link with heard := h.outbox.foldl Heard.hear link.heard }.outlook

variable {h : Handshake} {link : Link}

theorem foretold_of_written (hout : h.outbox = []) (link : Link) :
    h.foretold link = h.converse link.outlook := by
  rw [foretold, hout]
  rfl

/-- Nothing that a handshake answers contains a nonce. -/
theorem hear_receive (h : Handshake) (r : Received) (heard : Heard) :
    (h.receive r).handshake.outbox.foldl Heard.hear heard = h.outbox.foldl Heard.hear heard := by
  cases r with
  | error fault =>
      simp only [receive]
      split_ifs <;> rfl
  | ok m =>
      cases m with
      | version v =>
          simp only [receive, onMessage]
          split_ifs
          · rfl
          · simp only [onVersion]
            split_ifs
            · rfl
            · rfl
            · simp only [replies]
              split_ifs <;> rw [List.foldl_append] <;> rfl
      | _ => rfl

/-- A handshake does not outlive a failure of the stream. -/
theorem receive_stop (h : Handshake) {r : Reader.Result} (hstop : Reader.isStop r = true) :
    (h.receive (r.mapError .transport)).fault ≠ none := by
  cases r with
  | ok m => cases hstop
  | error fault =>
      cases fault with
      | io | endOfStream =>
          simp [receive, Except.mapError, ConnectionFault.isRecoverable, TransportFault.isRecoverable]
      | _ => cases hstop

/-- What a step of a handshake has to do with the end that is foretold. -/
structure Foretells (h : Handshake) (link : Link) (p : Progress) : Prop where
  part : p.link.reader.Waits
  fair : link.Fair → p.link.Fair
  /-- Success comes when it is foretold, and leaves the link what was not asked for. -/
  succeeds : p.outcome = .finished (.ok ()) →
    (h.foretold link).result = some (.ok ()) ∧ (h.foretold link).unread = p.link.outlook
  fails : link.Fair → ∀ fault, p.outcome = .finished (.error fault) →
    (h.foretold link).result = some (.error fault)
  goesOn : (∀ result, p.outcome ≠ .finished result) →
    (p.handshake.foretold p.link).result = (h.foretold link).result ∧
      (p.handshake.foretold p.link).unread = (h.foretold link).unread

theorem Foretells.ongoing {p : Progress} (part : p.link.reader.Waits) (fair : link.Fair → p.link.Fair)
    (unfinished : ∀ result, p.outcome ≠ .finished result)
    (same : (p.handshake.foretold p.link).result = (h.foretold link).result ∧
      (p.handshake.foretold p.link).unread = (h.foretold link).unread) : h.Foretells link p where
  part := part
  fair := fair
  succeeds := fun hover => absurd hover (unfinished _)
  fails := fun _ _ hover => absurd hover (unfinished _)
  goesOn := fun _ => same

theorem Foretells.failed {p : Progress} {fault : ConnectionFault} (part : p.link.reader.Waits)
    (fair : link.Fair → p.link.Fair) (hover : p.outcome = .finished (.error fault))
    (foretold : link.Fair → (h.foretold link).result = some (.error fault)) : h.Foretells link p where
  part := part
  fair := fair
  succeeds := by simp [hover]
  fails := by
    intro hf fault' hfault
    cases hover.symm.trans hfault
    exact foretold hf
  goesOn := fun hopen => absurd hover (hopen _)

theorem step_foretells_write (hw : link.reader.Waits) (now : Nat) {m : Message} {rest : List Message}
    (hout : h.outbox = m :: rest) : h.Foretells link (h.step now link) := by
  have hwritten : ∀ sent, ({ h with outbox := rest }.foretold
      { link with sent, heard := link.heard.hear m }).result = (h.foretold link).result ∧
      ({ h with outbox := rest }.foretold { link with sent, heard := link.heard.hear m }).unread
        = (h.foretold link).unread := by
    intro sent
    rw [foretold, foretold, converse_flushed, converse_flushed h, hout]
    simp only [Link.outlook, Link.unread, List.foldl_cons]
    exact ⟨rfl, rfl⟩
  simp only [step, hout, Link.send]
  cases hsend : WriteFault.outcome link.sent.size link.writeFault with
  | written =>
      refine .ongoing hw (fun hf => ⟨hw, hf.writes, hf.steady⟩) (by simp [Reaction.proceed, wrote]) ?_
      simp only [Reaction.proceed, wrote, hout, List.tail_cons]
      exact hwritten _
  | refused kind =>
      have hfaulty : ¬ link.Fair := fun hf => by
        rw [hf.writes] at hsend
        cases hsend
      exact .failed hw id rfl fun hf => absurd hf hfaulty
  | unflushed kind =>
      have hfaulty : ¬ link.Fair := fun hf => by
        rw [hf.writes] at hsend
        cases hsend
      exact .failed hw (fun hf => absurd hf hfaulty) rfl fun hf => absurd hf hfaulty
  | stalled => exact .ongoing hw id (by simp) ⟨rfl, rfl⟩

theorem step_foretells_receive (hw : link.reader.Waits) (now : Nat) (hout : h.outbox = [])
    (hstage : h.stage ≠ .complete) : h.Foretells link (h.step now link) := by
  have hflushed := flushed_eq hout
  have hpart := Link.receive_part hw now
  have hfair := fun hf : link.Fair => (hf.receive now).1
  have hheard : (link.receive now).1.heard = link.heard := rfl
  simp only [step, hout, if_neg hstage]
  cases hreceive : link.receive now with
  | mk link' poll =>
      rw [hreceive] at hpart hfair hheard
      cases poll with
      | waiting wake =>
          refine .ongoing hpart hfair (by simp) ?_
          rw [foretold_of_written hout, foretold_of_written hout, Link.outlook_of_waiting hw hreceive]
          exact ⟨rfl, rfl⟩
      | ready r =>
          have houtlook := Link.outlook_of_ready hw hreceive
          have hhear := h.hear_receive (r.mapError .transport) link'.heard
          rw [hout] at hhear
          have hreceived : h.flushed.receive (r.mapError .transport) = h.receive (r.mapError .transport) := by
            rw [hflushed]
          dsimp only [Reaction.proceed]
          cases hfault : (h.receive (r.mapError .transport)).fault with
          | some fault =>
              refine .failed hpart hfair rfl fun _ => ?_
              rw [foretold_of_written hout, houtlook, converse_fault hstage (hreceived ▸ hfault)]
          | none =>
              have hnot : ¬ Reader.isStop r = true := fun hstop => h.receive_stop hstop hfault
              refine .ongoing hpart hfair (by simp) ?_
              rw [foretold_of_written hout, houtlook, if_neg hnot, converse_cons hstage (hreceived ▸ hfault),
                hreceived, hout, foretold, hhear]
              exact ⟨rfl, rfl⟩

theorem step_foretells (hw : link.reader.Waits) (now : Nat) (h : Handshake) :
    h.Foretells link (h.step now link) := by
  cases hout : h.outbox with
  | cons m rest => exact step_foretells_write hw now hout
  | nil =>
      by_cases hstage : h.stage = .complete
      · have hend : h.foretold link = ⟨h.flushed, h.outbox, link.outlook, some (.ok ())⟩ := by
          rw [foretold_of_written hout, converse_complete hstage]
        simp only [step, hout, if_pos hstage]
        refine ⟨hw, id, fun _ => ?_, by simp, fun hopen => absurd rfl (hopen _)⟩
        rw [hend]
        exact ⟨rfl, rfl⟩
      · exact step_foretells_receive hw now hout hstage

/-! ## How long it takes -/

/-- What there is to do at most before the outbox is written and the link has brought everything. -/
def toil (h : Handshake) (link : Link) : Nat := link.toil + h.outbox.length

/-- At most two messages answer a result. -/
theorem length_outbox_receive (h : Handshake) (r : Received) :
    (h.receive r).handshake.outbox.length ≤ h.outbox.length + 2 := by
  cases r with
  | error fault =>
      simp only [receive]
      split_ifs <;> exact Nat.le_add_right _ 2
  | ok m =>
      cases m with
      | version v =>
          simp only [receive, onMessage]
          split_ifs
          · exact Nat.le_add_right _ 2
          · simp only [onVersion]
            split_ifs
            · exact Nat.le_add_right _ 2
            · exact Nat.le_add_right _ 2
            · simp only [replies, List.length_append]
              split_ifs <;> simp
      | _ => exact Nat.le_add_right _ 2

/-- What a step of a handshake comes to over a link on which every read has a result. -/
inductive Hastens (h : Handshake) (link : Link) : Progress → Prop
  | moved (h' : Handshake) (link' : Link) (log : Log) (prompt : link'.Prompt)
      (less : h'.toil link' < h.toil link) :
      Hastens h link { handshake := h', link := link', log, outcome := .moved }
  | finished (h' : Handshake) (link' : Link) (log : Log) (result : Except ConnectionFault Unit)
      (prompt : link'.Prompt) (kept : result = .ok () → link'.outlook = link.outlook) :
      Hastens h link { handshake := h', link := link', log, outcome := .finished result }

theorem step_hastens (hp : link.Prompt) (now : Nat) (h : Handshake) : h.Hastens link (h.step now link) := by
  have hsteps := step_steps hp.writes now h
  generalize h.step now link = p at hsteps
  cases hsteps with
  | writes m rest log hout =>
      obtain ⟨link', hsend, hprompt, houtlook⟩ := hp.send m
      rw [hsend]
      refine .moved _ _ _ hprompt ?_
      rw [toil, toil, Link.toil, Link.toil, houtlook, hout, List.length_cons]
      exact Nat.lt_succ_self _
  | done log hout hstage => exact .finished _ _ _ _ hp fun _ => rfl
  | receives link' r hout hstage hready =>
      have hprompt : link'.Prompt := by
        obtain ⟨link'', r', hready', hprompt⟩ := hp.receive now
        rw [hready] at hready'
        cases hready'
        exact hprompt
      have houtlook := Link.outlook_of_ready hp.part hready
      dsimp only [Reaction.proceed]
      cases hfault : (h.receive (r.mapError .transport)).fault with
      | some fault => exact .finished _ _ _ _ hprompt (by simp)
      | none =>
          have hnot : ¬ Reader.isStop r = true := fun hstop => h.receive_stop hstop hfault
          have hbox := h.length_outbox_receive (r.mapError .transport)
          refine .moved _ _ _ hprompt ?_
          rw [toil, toil, Link.toil, Link.toil, houtlook, if_neg hnot, List.length_cons]
          omega
  | waits link' wake hout hstage hunready =>
      obtain ⟨link'', r, hready, -⟩ := hp.receive now
      rw [hunready] at hready
      cases hready

end BitcoinCrawl.Handshake
