import BitcoinCrawl.Proofs.Peering.Conversation
import Mathlib.Data.List.Induction

set_option autoImplicit false

/-! # What a handshake accepts

A handshake reads the shortest prefix of what it could receive that settles it (`Handshake.verdict`), and the
prefix alone says how it ends, what the peer is taken to be and what was written. -/

namespace BitcoinCrawl

namespace Handshake

/-! ## What counts -/

/-- The version message in a result. -/
def version? : Received → Option VersionMessage
  | .ok (.version v) => some v
  | _ => none

def isVerack : Received → Bool
  | .ok .verack => true
  | _ => false

/-- The fault in a result that no handshake outlives. -/
def terminal? : Received → Option ConnectionFault
  | .error fault => if fault.isRecoverable then none else some fault
  | .ok _ => none

/-- Whether a version message is one that its receiver wants to talk to. -/
def Accepts (nonce : UInt64) (v : VersionMessage) : Prop :=
  v.nonce ≠ nonce ∧ ¬ v.version < minProtocolVersion

instance (nonce : UInt64) (v : VersionMessage) : Decidable (Accepts nonce v) :=
  inferInstanceAs (Decidable (_ ∧ _))

/-- The first version message, if it is accepted. -/
def accepted? (nonce : UInt64) (read : List Received) : Option VersionMessage :=
  (read.findSome? version?).filter (Accepts nonce ·)

/-- How a handshake ends with the last of these results, unless it goes on behind it. It has not ended before
    the last. -/
def verdict (nonce : UInt64) (read : List Received) : Option (Except ConnectionFault Unit) :=
  match read.findSome? terminal?, read.findSome? version? with
  | some fault, _ => some (.error fault)
  | none, none => none
  | none, some v =>
    if v.nonce = nonce then some (.error .selfDialed)
    else if v.version < minProtocolVersion then some (.error (.obsolete v.version))
    else if read.any isVerack then some (.ok ()) else none

/-- A peer as it introduces itself. Where it is stays what it was. -/
def introduced (peer : Peer) (v : VersionMessage) : Peer :=
  { peer with services := some v.services, version := some v.version, userAgent := some v.userAgent }

/-- How far a handshake has come that has or has not got the version and the acknowledgement. -/
def stageOf : Bool → Bool → HandshakeStage
  | false, false => .versionSent
  | true, false => .versionReceived
  | false, true => .verackReceived
  | true, true => .complete

/-! ## A handshake that has not failed -/

variable {config : ConnectionConfig} {peer : Peer} {nonce : UInt64} {h : Handshake} {read : List Received}
  {r : Received}

/-- A handshake after results that did not make it fail. -/
structure Standing (config : ConnectionConfig) (peer : Peer) (nonce : UInt64) (read : List Received)
    (h : Handshake) : Prop where
  settings : h.config = config
  ours : h.nonce = nonce
  quiet : read.findSome? terminal? = none
  accepts : ∀ v, read.findSome? version? = some v → Accepts nonce v
  stage : h.stage = stageOf (read.findSome? version?).isSome (read.any isVerack)
  peer : h.peer = (read.findSome? version?).elim peer (introduced peer)

theorem Standing.accepted (hs : Standing config peer nonce read h) :
    accepted? nonce read = read.findSome? version? := by
  cases hv : read.findSome? version? with
  | none => rw [accepted?, hv]; rfl
  | some v => rw [accepted?, hv, Option.filter_some, if_pos (decide_eq_true (hs.accepts v hv))]

theorem Standing.verdict (hs : Standing config peer nonce read h) :
    verdict nonce read = if h.stage = .complete then some (.ok ()) else none := by
  simp only [Handshake.verdict, hs.quiet, hs.stage]
  cases hv : read.findSome? version? with
  | none => cases read.any isVerack <;> rfl
  | some v =>
      obtain ⟨hnonce, hversion⟩ := hs.accepts v hv
      simp only [if_neg hnonce, if_neg hversion]
      cases read.any isVerack <;> rfl

/-- A result that neither ends a handshake nor is what it waits for: a frame to be skipped, a message of
    another kind, or a version or an acknowledgement that is not the first. -/
structure Idle (read : List Received) (r : Received) : Prop where
  quiet : terminal? r = none
  version : version? r = none ∨ (read.findSome? version?).isSome
  verack : isVerack r = false ∨ read.any isVerack

theorem Idle.version_eq (hidle : Idle read r) :
    (read ++ [r]).findSome? version? = read.findSome? version? := by
  rw [List.findSome?_append, List.findSome?_singleton]
  rcases hidle.version with hnone | hsome
  · rw [hnone, Option.or_none]
  · exact Option.or_of_isSome hsome

theorem Idle.verack_eq (hidle : Idle read r) : (read ++ [r]).any isVerack = read.any isVerack := by
  rw [List.any_append, List.any_cons, List.any_nil, Bool.or_false]
  rcases hidle.verack with hfalse | htrue
  · rw [hfalse, Bool.or_false]
  · rw [htrue, Bool.true_or]

theorem Standing.idle (hs : Standing config peer nonce read h) (hidle : Idle read r) :
    Standing config peer nonce (read ++ [r]) h := by
  refine ⟨hs.settings, hs.ours, ?_, ?_, ?_, ?_⟩
  · rw [List.findSome?_append, List.findSome?_singleton, hs.quiet, hidle.quiet]
    rfl
  · rw [hidle.version_eq]; exact hs.accepts
  · rw [hidle.version_eq, hidle.verack_eq]; exact hs.stage
  · rw [hidle.version_eq]; exact hs.peer

/-- Such a result leaves the handshake as it is. -/
theorem Standing.receive_idle (hs : Standing config peer nonce read h) (hidle : Idle read r) :
    ∃ log, h.receive r = { handshake := h, log } := by
  have hstage := hs.stage
  cases r with
  | error fault =>
      have hrecoverable : fault.isRecoverable = true := by
        have hquiet := hidle.quiet
        simp only [terminal?] at hquiet
        split_ifs at hquiet with hrecoverable
        exact hrecoverable
      exact ⟨_, if_pos hrecoverable⟩
  | ok m =>
      cases m with
      | version v =>
          obtain hnone | hsome := hidle.version
          · cases hnone
          · have hhas : h.stage.hasVersion = true := by
              rw [hstage, hsome]
              cases read.any isVerack <;> rfl
            exact ⟨_, if_pos hhas⟩
      | verack =>
          obtain hfalse | htrue := hidle.verack
          · cases hfalse
          · -- A repeated acknowledgement does not move the stage.
            have hsame : h.stage.onVerack = h.stage := by
              rw [hstage, htrue]
              cases (read.findSome? version?).isSome <;> rfl
            simp only [receive, onMessage, hsame]
            exact ⟨_, rfl⟩
      | _ => exact ⟨_, rfl⟩

/-- The messages that answer the results. -/
def answers (config : ConnectionConfig) (nonce : UInt64) (read : List Received) : List Message :=
  (accepted? nonce read).elim [] (replies config ·.version)

/-- What one more result does to a handshake that has nothing to write. -/
inductive Reacts (config : ConnectionConfig) (peer : Peer) (nonce : UInt64) (read : List Received)
    (h : Handshake) (r : Received) : Reaction → Prop
  | fails (reaction : Reaction) (fault : ConnectionFault) (failed : reaction.fault = some fault)
      (kept : reaction.handshake = h) (result : verdict nonce (read ++ [r]) = some (.error fault))
      (accepted : accepted? nonce (read ++ [r]) = accepted? nonce read) :
      Reacts config peer nonce read h r reaction
  | stands (reaction : Reaction) (unfailed : reaction.fault = none)
      (standing : Standing config peer nonce (read ++ [r]) reaction.handshake)
      (sent : answers config nonce (read ++ [r]) = answers config nonce read ++ reaction.handshake.outbox) :
      Reacts config peer nonce read h r reaction

theorem Standing.reacts_idle (hs : Standing config peer nonce read h) (hout : h.outbox = [])
    (hidle : Idle read r) : Reacts config peer nonce read h r (h.receive r) := by
  obtain ⟨log, hlog⟩ := hs.receive_idle hidle
  have hnext := hs.idle hidle
  rw [hlog]
  refine .stands _ rfl hnext ?_
  rw [hout, List.append_nil, answers, answers, hnext.accepted, hs.accepted, hidle.version_eq]

/-- The first version is judged, and taken over if it is accepted. -/
theorem Standing.reacts_version (hs : Standing config peer nonce read h) (hout : h.outbox = [])
    (hfirst : read.findSome? version? = none) (v : VersionMessage) :
    Reacts config peer nonce read h (.ok (.version v)) (h.onVersion v) := by
  obtain rfl := hs.ours
  have hquiet : (read ++ [(.ok (.version v) : Received)]).findSome? terminal? = none := by
    rw [List.findSome?_append, hs.quiet]
    rfl
  have hv : (read ++ [(.ok (.version v) : Received)]).findSome? version? = some v := by
    rw [List.findSome?_append, hfirst]
    rfl
  have ha : (read ++ [(.ok (.version v) : Received)]).any isVerack = read.any isVerack := by
    rw [List.any_append]
    exact Bool.or_false _
  have hbefore : accepted? h.nonce read = none := by rw [hs.accepted, hfirst]
  simp only [onVersion]
  split_ifs with hnonce hold
  · refine .fails _ .selfDialed rfl rfl ?_ ?_
    · simp only [Handshake.verdict, hquiet, hv, if_pos hnonce]
    · rw [hbefore, accepted?, hv, Option.filter_some, if_neg (by simp [Accepts, hnonce])]
  · refine .fails _ (.obsolete v.version) rfl rfl ?_ ?_
    · simp only [Handshake.verdict, hquiet, hv, if_neg hnonce, if_pos hold]
    · rw [hbefore, accepted?, hv, Option.filter_some, if_neg (by simp [Accepts, hold])]
  · have hnext : Standing config peer h.nonce (read ++ [(.ok (.version v) : Received)])
        { h with peer := introduced h.peer v, stage := h.stage.onVersion,
                 outbox := h.outbox ++ replies h.config v.version } := by
      refine ⟨hs.settings, hs.ours, hquiet, ?_, ?_, ?_⟩
      · rw [hv]
        rintro _ ⟨⟩
        exact ⟨hnonce, hold⟩
      · rw [hv, ha, hs.stage, hfirst]
        cases read.any isVerack <;> rfl
      · rw [hv, hs.peer, hfirst]
        rfl
    refine .stands _ rfl hnext ?_
    rw [answers, answers, hnext.accepted, hs.accepted, hv, hfirst, hout, hs.settings]
    rfl

/-- The first acknowledgement is noted. -/
theorem Standing.reacts_verack (hs : Standing config peer nonce read h) (hout : h.outbox = [])
    (hfirst : read.any isVerack = false) (log : Log) :
    Reacts config peer nonce read h (.ok .verack)
      { handshake := { h with stage := h.stage.onVerack }, log } := by
  have hquiet : (read ++ [(.ok .verack : Received)]).findSome? terminal? = none := by
    rw [List.findSome?_append, hs.quiet]
    rfl
  have hv : (read ++ [(.ok .verack : Received)]).findSome? version? = read.findSome? version? := by
    rw [List.findSome?_append]
    exact Option.or_none
  have ha : (read ++ [(.ok .verack : Received)]).any isVerack = true := by
    rw [List.any_append]
    exact Bool.or_true _
  have hnext : Standing config peer nonce (read ++ [(.ok .verack : Received)])
      { h with stage := h.stage.onVerack } := by
    refine ⟨hs.settings, hs.ours, hquiet, hv ▸ hs.accepts, ?_, hv ▸ hs.peer⟩
    rw [hv, ha, hs.stage, hfirst]
    cases (read.findSome? version?).isSome <;> rfl
  refine .stands _ rfl hnext ?_
  rw [answers, answers, hnext.accepted, hs.accepted, hv, hout, List.append_nil]

theorem Standing.reacts_terminal (hs : Standing config peer nonce read h) {fault : ConnectionFault}
    (hfault : ¬ fault.isRecoverable = true) :
    Reacts config peer nonce read h (.error fault) { handshake := h, fault := some fault } := by
  have hterminal : terminal? (.error fault) = some fault := if_neg hfault
  refine .fails _ fault rfl rfl ?_ ?_
  · simp only [Handshake.verdict, List.findSome?_append, hs.quiet, List.findSome?_singleton, hterminal,
      Option.none_or]
  · have hsame : (read ++ [(.error fault : Received)]).findSome? version? = read.findSome? version? := by
      rw [List.findSome?_append]
      exact Option.or_none
    rw [accepted?, hsame, accepted?]

theorem Standing.reacts (hs : Standing config peer nonce read h) (hout : h.outbox = []) (r : Received) :
    Reacts config peer nonce read h r (h.receive r) := by
  have hstage := hs.stage
  cases r with
  | error fault =>
      by_cases hrecoverable : fault.isRecoverable = true
      · exact hs.reacts_idle hout ⟨if_pos hrecoverable, .inl rfl, .inl rfl⟩
      · simp only [receive, if_neg hrecoverable]
        exact hs.reacts_terminal hrecoverable
  | ok m =>
      cases m with
      | version v =>
          cases hfirst : read.findSome? version? with
          | some first => exact hs.reacts_idle hout ⟨rfl, .inr (by rw [hfirst]; rfl), .inl rfl⟩
          | none =>
              have hnot : ¬ h.stage.hasVersion = true := by
                rw [hstage, hfirst]
                cases read.any isVerack <;> exact Bool.false_ne_true
              simp only [receive, onMessage, if_neg hnot]
              exact hs.reacts_version hout hfirst v
      | verack =>
          cases hfirst : read.any isVerack with
          | true => exact hs.reacts_idle hout ⟨rfl, .inl rfl, .inr hfirst⟩
          | false => exact hs.reacts_verack hout hfirst _
      | _ => exact hs.reacts_idle hout ⟨rfl, .inl rfl, .inl rfl⟩

/-! ## Whole conversations -/

theorem Standing.begin (config : ConnectionConfig) (peer : Peer) (nonce : UInt64) (time : Int64) :
    Standing config peer nonce [] (begin config peer nonce time).flushed :=
  ⟨rfl, rfl, rfl, fun _ h => (nomatch h), rfl, rfl⟩

theorem Standing.flushed (hs : Standing config peer nonce read h) :
    Standing config peer nonce read h.flushed :=
  ⟨hs.settings, hs.ours, hs.quiet, hs.accepts, hs.stage, hs.peer⟩

/-- A conversation and the results that it asked for. -/
structure Judged (config : ConnectionConfig) (peer : Peer) (nonce : UInt64) (time : Int64)
    (read : List Received) (c : Conversation) : Prop where
  result : c.result = verdict nonce read
  /-- It asks for nothing beyond the result that settles it. -/
  shortest : ∀ shorter, shorter <+: read → shorter ≠ read → verdict nonce shorter = none
  /-- It asks for everything while it is not settled. -/
  all : c.result = none → c.unread = []
  sent : c.sent = .version (config.introduction peer nonce time) :: answers config nonce read
  peer : c.handshake.peer = (accepted? nonce read).elim peer (introduced peer)

theorem Judged.snoc {time : Int64} {c : Conversation} (hj : Judged config peer nonce time read c)
    (hs : Standing config peer nonce read c.handshake) (hopen : c.result = none)
    (hout : c.handshake.outbox = []) (hstage : c.handshake.stage ≠ .complete) (r : Received) :
    Judged config peer nonce time (read ++ [r]) ((c.handshake.converse [r]).behind c.sent) ∧
      (c.handshake.converse [r]).unread = [] ∧
      ((c.handshake.converse [r]).result = none →
        Standing config peer nonce (read ++ [r]) (c.handshake.converse [r]).handshake) := by
  have hshortest : ∀ shorter, shorter <+: read ++ [r] → shorter ≠ read ++ [r] →
      verdict nonce shorter = none := by
    intro shorter hprefix hne
    rcases List.prefix_concat_iff.mp hprefix with heq | hless
    · exact absurd heq hne
    · by_cases heq : shorter = read
      · rw [heq, ← hj.result, hopen]
      · exact hj.shortest shorter hless heq
  have hflushed := flushed_eq hout
  have hreacts := hs.reacts hout r
  generalize hreaction : c.handshake.receive r = reaction at hreacts
  rw [← hflushed] at hreaction
  cases hreacts with
  | fails fault hfault hkept hverdict haccepted =>
      rw [← hreaction] at hfault hkept
      rw [converse_fault hstage hfault]
      refine ⟨⟨hverdict.symm, hshortest, fun h => (nomatch h), ?_, ?_⟩, rfl, fun h => (nomatch h)⟩
      · show c.sent ++ c.handshake.outbox = _
        rw [hout, List.append_nil, answers, haccepted]
        exact hj.sent
      · show (c.handshake.flushed.receive r).handshake.peer = _
        rw [hkept, haccepted]
        exact hj.peer
  | stands hfault hstanding hsent =>
      rw [← hreaction] at hfault hstanding hsent
      rw [converse_cons hstage hfault, hout, Conversation.behind_nil]
      have hnext := hstanding.flushed
      refine ⟨⟨hnext.verdict.symm, hshortest, fun _ => rfl, ?_, ?_⟩, rfl, fun _ => hnext⟩
      · rw [hsent, ← List.cons_append, ← hj.sent]
        rfl
      · rw [hnext.accepted]
        exact hnext.peer

/-- A handshake reads the shortest prefix of the results that settles it. -/
theorem converse_judged (config : ConnectionConfig) (peer : Peer) (nonce : UInt64) (time : Int64)
    (rs : List Received) :
    (∃ read, rs = read ++ ((begin config peer nonce time).converse rs).unread ∧
      Judged config peer nonce time read ((begin config peer nonce time).converse rs)) ∧
    (((begin config peer nonce time).converse rs).result = none →
      Standing config peer nonce rs ((begin config peer nonce time).converse rs).handshake) := by
  induction rs using List.reverseRecOn with
  | nil =>
      refine ⟨⟨[], rfl, rfl, fun shorter hprefix hne => ?_, fun _ => rfl, rfl, rfl⟩,
        fun _ => .begin config peer nonce time⟩
      exact absurd (List.prefix_nil.mp hprefix) hne
  | append_singleton rs r ih =>
      obtain ⟨⟨read, hread, hj⟩, hstanding⟩ := ih
      cases hresult : ((begin config peer nonce time).converse rs).result with
      | some result =>
          rw [converse_append_over hresult]
          refine ⟨⟨read, ?_, hj.result, hj.shortest, fun hnone => ?_, hj.sent, hj.peer⟩, fun hnone => ?_⟩
          · rw [← List.append_assoc, ← hread]
          · exact nomatch hresult.symm.trans hnone
          · exact nomatch hresult.symm.trans hnone
      | none =>
          obtain ⟨hunread, hout, hstage⟩ := converse_open hresult
          rw [hunread, List.append_nil] at hread
          subst hread
          obtain ⟨hnext, hrest, hnextStanding⟩ := hj.snoc (hstanding hresult) hresult hout hstage r
          rw [converse_append_open hresult]
          exact ⟨⟨rs ++ [r], by rw [Conversation.behind, hrest, List.append_nil], hnext⟩, hnextStanding⟩

variable {time : Int64} {rs : List Received}

/-- What a handshake must have read to succeed. -/
structure Agreed (nonce : UInt64) (read : List Received) : Prop where
  quiet : read.findSome? terminal? = none
  version : ∃ v, read.findSome? version? = some v ∧ Accepts nonce v
  verack : read.any isVerack

theorem verdict_eq_ok : verdict nonce read = some (.ok ()) ↔ Agreed nonce read := by
  constructor
  · intro h
    unfold verdict at h
    split at h
    · cases h
    · cases h
    · rename_i v hquiet hv
      split_ifs at h with hnonce hold hverack
      · cases h
      · cases h
      · exact ⟨hquiet, ⟨v, hv, hnonce, hold⟩, hverack⟩
  · rintro ⟨hquiet, ⟨v, hv, hnonce, hold⟩, hverack⟩
    simp only [verdict, hquiet, hv, if_neg hnonce, if_neg hold, if_pos hverack]

/-- Until both sides agree there is no verdict, if in the end they do. -/
theorem Agreed.verdict_take {more : List Received} (h : Agreed nonce (read ++ more)) :
    verdict nonce read = none ∨ verdict nonce read = some (.ok ()) := by
  obtain ⟨hquiet, ⟨v, hv, hnonce, hold⟩, -⟩ := h
  rw [List.findSome?_append] at hquiet hv
  have hbefore : read.findSome? terminal? = none := (Option.or_eq_none_iff.mp hquiet).1
  cases hfirst : read.findSome? version? with
  | none => exact .inl (by simp only [verdict, hbefore, hfirst])
  | some first =>
      rw [hfirst, Option.some_or] at hv
      cases hv
      simp only [verdict, hbefore, hfirst, if_neg hnonce, if_neg hold]
      cases read.any isVerack
      · exact .inl rfl
      · exact .inr rfl

/-- A handshake succeeds if and only if an accepted version and an acknowledgement come, in either order,
    before anything that ends it. -/
theorem converse_ok_iff :
    ((begin config peer nonce time).converse rs).result = some (.ok ()) ↔
      ∃ read, read <+: rs ∧ Agreed nonce read := by
  obtain ⟨⟨read, hread, hj⟩, -⟩ := converse_judged config peer nonce time rs
  have hprefix : read <+: rs := ⟨_, hread.symm⟩
  rw [hj.result]
  constructor
  · exact fun h => ⟨read, hprefix, verdict_eq_ok.mp h⟩
  · rintro ⟨enough, henough, hagreed⟩
    -- What was read is not longer than what is enough, and with less there would be no verdict.
    rcases List.prefix_or_prefix_of_prefix henough hprefix with hle | hle
    · by_cases heq : enough = read
      · exact heq ▸ verdict_eq_ok.mpr hagreed
      · have hnone := hj.shortest enough hle heq
        rw [verdict_eq_ok.mpr hagreed] at hnone
        cases hnone
    · obtain ⟨more, rfl⟩ := hle
      rcases hagreed.verdict_take with hnone | hok
      · have hall := hj.all (hj.result.trans hnone)
        rw [hall, List.append_nil] at hread
        subst hread
        have hmore : more = [] := by
          have hlength := henough.length_le
          rw [List.length_append] at hlength
          exact List.length_eq_zero_iff.mp (by omega)
        rw [hmore, List.append_nil] at hagreed
        exact verdict_eq_ok.mpr hagreed
      · exact hok

/-- What is idle may as well not have come. -/
theorem converse_idle {pre : List Received} (hidle : Idle pre r) (post : List Received) :
    ((begin config peer nonce time).converse (pre ++ r :: post)).handshake
        = ((begin config peer nonce time).converse (pre ++ post)).handshake ∧
      ((begin config peer nonce time).converse (pre ++ r :: post)).sent
        = ((begin config peer nonce time).converse (pre ++ post)).sent ∧
      ((begin config peer nonce time).converse (pre ++ r :: post)).result
        = ((begin config peer nonce time).converse (pre ++ post)).result := by
  cases hresult : ((begin config peer nonce time).converse pre).result with
  | some result =>
      rw [converse_append_over hresult, converse_append_over hresult]
      exact ⟨rfl, rfl, rfl⟩
  | none =>
      have hs := (converse_judged config peer nonce time pre).2 hresult
      obtain ⟨-, hout, hstage⟩ := converse_open hresult
      obtain ⟨log, hlog⟩ := hs.receive_idle hidle
      rw [converse_append_open hresult, converse_append_open hresult, converse_skip hstage hout hlog]
      exact ⟨rfl, rfl, rfl⟩

end Handshake

end BitcoinCrawl
