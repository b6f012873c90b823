import BitcoinCrawl.Proofs.Transport.Cutting
import BitcoinCrawl.Transport.Link

set_option autoImplicit false

/-! # Frames do not depend on chunks

A reader gets its bytes in chunks, between pauses, failures and reads that find the stream at its end, and
keeps what it has of a frame through all of them. What is still to come from a link is a list of `Token`s:
the bytes the reader holds and those of the script, with the failures between them where a read meets them.
`Script.read_takes` says which tokens one read takes, and from that the main theorem: whatever the chunks,
repeated reads give the results of cutting the bytes at once (`Link.reads_cut_at_once`). -/

namespace BitcoinCrawl

namespace Reader

/-- Whether a result reports what happened to the stream instead of what came from it. -/
def isStop : Result → Bool
  | .error .endOfStream | .error (.io _) => true
  | _ => false

end Reader

theorem Frame.isStop_decode (magic : Magic) (frame : Bytes) : Reader.isStop (decode magic frame) = false := by
  unfold decode
  split
  · rfl
  · split_ifs
    · rfl
    · split <;> rfl

/-- Bytes never make up a failure of the stream. -/
theorem Frame.isStop_of_next? {magic : Magic} {bytes rest : Bytes} {r : Reader.Result}
    (h : next? magic bytes = some (r, rest)) : Reader.isStop r = false := by
  obtain ⟨-, ⟨-, rfl, -⟩ | ⟨-, -, rfl, -⟩⟩ := next?_cases h
  · rfl
  · exact isStop_decode magic _

/-! ## What is to come from a script -/

/-- Something that a read meets: a byte, or what stops it. -/
inductive Token where
  | byte (b : UInt8)
  | stop (fault : TransportFault)
  deriving DecidableEq

namespace Token

def byte? : Token → Option UInt8
  | byte b => some b
  | stop _ => none

def stop? : Token → Option TransportFault
  | byte _ => none
  | stop fault => some fault

/-- The bytes among some tokens. -/
def bytes (tokens : List Token) : Bytes := tokens.filterMap byte?

/-- The failures among some tokens. -/
def stops (tokens : List Token) : List TransportFault := tokens.filterMap stop?

@[simp] theorem bytes_append (ts us : List Token) : bytes (ts ++ us) = bytes ts ++ bytes us :=
  List.filterMap_append

@[simp] theorem stops_append (ts us : List Token) : stops (ts ++ us) = stops ts ++ stops us :=
  List.filterMap_append

@[simp] theorem bytes_map (bs : Bytes) : bytes (bs.map byte) = bs := by
  induction bs with
  | nil => rfl
  | cons b rest ih => exact congrArg (b :: ·) ih

@[simp] theorem stops_map (bs : Bytes) : stops (bs.map byte) = [] := by
  induction bs with
  | nil => rfl
  | cons b rest ih => exact ih

@[simp] theorem bytes_stop (fault : TransportFault) (ts : List Token) :
    bytes (stop fault :: ts) = bytes ts := rfl

@[simp] theorem stops_stop (fault : TransportFault) (ts : List Token) :
    stops (stop fault :: ts) = fault :: stops ts := rfl

end Token

/-- Whether an event keeps reads waiting until an instant of its own. -/
def StreamEvent.isPause : StreamEvent → Bool
  | .delay _ | .hold => true
  | _ => false

/-- What reads meet in an event. -/
def StreamEvent.tokens (heard : Heard) : StreamEvent → List Token
  | .bytes chunk => chunk.map .byte
  | .frame f => (f.bytes heard).map .byte
  | .eof => [.stop .endOfStream]
  | .fault kind => [.stop (.io ⟨kind, none⟩)]
  | .delay _ | .notReady | .hold => []

/-- What reads meet in some events, in order. -/
def Script.tokens (heard : Heard) (events : List StreamEvent) : List Token :=
  events.flatMap (StreamEvent.tokens heard)

namespace Script

@[simp] theorem tokens_nil (heard : Heard) : tokens heard [] = [] := rfl

@[simp] theorem tokens_cons (heard : Heard) (event : StreamEvent) (events : List StreamEvent) :
    tokens heard (event :: events) = event.tokens heard ++ tokens heard events :=
  List.flatMap_cons

variable {magic : Magic} {heard : Heard} {now : Nat} {reader : Reader}

/-- What one read takes of the tokens before it. -/
inductive Takes (magic : Magic) (heard : Heard) (before : List Token) : ScriptRead → Prop
  /-- The read takes what is there, and waits. -/
  | waits (reader : Reader) (script : Script) (wake : Option Nat) (part : reader.Waits)
      (split : before = reader.held.map .byte ++ tokens heard script.events) :
      Takes magic heard before ⟨reader, script, .waiting wake⟩
  | stops (reader : Reader) (script : Script) (fault : TransportFault) (part : reader.Waits)
      (stop : Reader.isStop (.error fault) = true)
      (split : before = reader.held.map .byte ++ .stop fault :: tokens heard script.events) :
      Takes magic heard before ⟨reader, script, .ready (.error fault)⟩
  /-- Nothing is left of the script. -/
  | ends (reader : Reader) (part : reader.Waits) (split : before = reader.held.map .byte) :
      Takes magic heard before ⟨reader, ⟨[], none⟩, .ready (.error .endOfStream)⟩
  /-- The read takes a frame and nothing else. -/
  | frame (taken : Bytes) (script : Script) (r : Reader.Result)
      (next : ∀ more, Frame.next? magic (taken ++ more) = some (r, more))
      (split : before = taken.map .byte ++ tokens heard script.events) :
      Takes magic heard before ⟨.start, script, .ready r⟩

/-- A reader goes on with a chunk: it needs more, or a frame ends in the chunk. -/
theorem takes_chunk {chunk : Bytes} {rest : List StreamEvent} {s : ScriptRead}
    (hw : reader.Waits)
    (hall : ∀ reader', reader.absorb magic chunk = .all reader' → reader'.Waits →
      Takes magic heard (reader'.held.map .byte ++ tokens heard rest) s)
    (hresult : ∀ r left, reader.absorb magic chunk = .result r left →
      s = ⟨.start, ⟨.bytes left :: rest, none⟩, .ready r⟩) :
    Takes magic heard (reader.held.map .byte ++ tokens heard (.bytes chunk :: rest)) s := by
  rw [tokens_cons, show (StreamEvent.bytes chunk).tokens heard = chunk.map .byte from rfl]
  have hspec := Reader.absorb_spec magic hw chunk
  cases habsorb : reader.absorb magic chunk with
  | all reader' =>
      rw [habsorb] at hspec
      obtain ⟨_, hkept, hwaits⟩ := hspec
      have htakes := hall reader' habsorb hwaits
      rwa [hkept, List.map_append, List.append_assoc] at htakes
  | result r left =>
      rw [habsorb] at hspec
      obtain ⟨_, _, hnext⟩ | ⟨_, _, hnext⟩ := hspec
      obtain ⟨frame, hsplit, hframe⟩ := Frame.next?_split hnext
      rw [hresult r left habsorb]
      refine .frame frame _ r hframe ?_
      rw [← List.append_assoc, ← List.map_append, hsplit, List.map_append, List.append_assoc, tokens_cons]
      rfl

theorem read_takes (hw : reader.Waits) (pauseEnd : Option Nat) (events : List StreamEvent) :
    Takes magic heard (reader.held.map .byte ++ tokens heard events)
      (read magic heard now reader pauseEnd events) := by
  -- A read goes on to the next event while it has nothing to show, with what it has taken so far.
  induction events generalizing reader pauseEnd with
  | nil => exact .ends reader hw (List.append_nil _)
  | cons event rest ih =>
      cases event with
      | bytes chunk =>
          refine takes_chunk hw (fun reader' habsorb hwaits => ?_) fun r left habsorb => ?_
          · simp only [read, habsorb]
            exact ih hwaits none
          · simp only [read, habsorb]
      | frame f =>
          have hsame : tokens heard (.frame f :: rest) = tokens heard (.bytes (f.bytes heard) :: rest) := by
            rw [tokens_cons, tokens_cons]
            rfl
          rw [hsame]
          refine takes_chunk hw (fun reader' habsorb hwaits => ?_) fun r left habsorb => ?_
          · simp only [read, habsorb]
            exact ih hwaits none
          · simp only [read, habsorb]
      | eof => exact .stops reader _ .endOfStream hw rfl (congrArg _ (tokens_cons ..))
      | fault kind => exact .stops reader _ (.io ⟨kind, none⟩) hw rfl (congrArg _ (tokens_cons ..))
      | delay span =>
          simp only [read]
          split_ifs
          · rw [tokens_cons]
            exact ih hw none
          · exact .waits reader _ _ hw rfl
      | notReady => exact .waits reader _ _ hw (congrArg _ (tokens_cons ..))
      | hold => exact .waits reader _ _ hw rfl

/-- How much there is to do for reads of a script: its events and the bytes they bring. -/
def volume (heard : Heard) (events : List StreamEvent) : Nat :=
  events.length + (Token.bytes (tokens heard events)).length

theorem volume_cons (heard : Heard) (event : StreamEvent) (events : List StreamEvent) :
    volume heard (event :: events)
      = 1 + (Token.bytes (event.tokens heard)).length + volume heard events := by
  simp only [volume, List.length_cons, tokens_cons, Token.bytes_append, List.length_append]
  omega

theorem volume_bytes (heard : Heard) (chunk : Bytes) (events : List StreamEvent) :
    volume heard (.bytes chunk :: events) = 1 + chunk.length + volume heard events := by
  rw [volume_cons]
  exact congrArg (1 + List.length · + _) (Token.bytes_map chunk)

/-- A chunk is taken as a whole, or the frame that ends in it leaves less of it. -/
theorem volume_chunk (magic : Magic) {chunk : Bytes} {rest : List StreamEvent} {s : ScriptRead} (hw : reader.Waits)
    (hrest : ∀ event ∈ rest, event.isPause = false)
    (hall : ∀ reader', reader.absorb magic chunk = .all reader' → reader'.Waits →
      (∀ event ∈ s.script.events, event.isPause = false) ∧
        volume heard s.script.events ≤ volume heard rest - 1)
    (hresult : ∀ r left, reader.absorb magic chunk = .result r left →
      s.script.events = .bytes left :: rest) :
    (∀ event ∈ s.script.events, event.isPause = false) ∧
      volume heard s.script.events ≤ chunk.length + volume heard rest := by
  have hspec := Reader.absorb_spec magic hw chunk
  cases habsorb : reader.absorb magic chunk with
  | all reader' =>
      rw [habsorb] at hspec
      obtain ⟨_, -, hwaits⟩ := hspec
      obtain ⟨hkept, hless⟩ := hall reader' habsorb hwaits
      exact ⟨hkept, by omega⟩
  | result r left =>
      rw [habsorb] at hspec
      obtain ⟨_, _, hnext⟩ | ⟨_, _, hnext⟩ := hspec
      have hless := hw.length_lt hnext
      rw [hresult r left habsorb, volume_bytes]
      refine ⟨fun event he => ?_, by omega⟩
      rcases List.mem_cons.mp he with rfl | he
      · rfl
      · exact hrest event he

/-- Every read gets on with a script that does not pause: it uses up an event or completes a frame. -/
theorem read_volume (hw : reader.Waits) (pauseEnd : Option Nat) (events : List StreamEvent)
    (hrun : ∀ event ∈ events, event.isPause = false) :
    (∀ event ∈ (read magic heard now reader pauseEnd events).script.events, event.isPause = false) ∧
      volume heard (read magic heard now reader pauseEnd events).script.events
        ≤ volume heard events - 1 := by
  induction events generalizing reader pauseEnd with
  | nil => exact ⟨hrun, Nat.zero_le _⟩
  | cons event rest ih =>
      have hrest : ∀ e ∈ rest, e.isPause = false := fun e he => hrun e (List.mem_cons_of_mem _ he)
      have hless : volume heard (event :: rest) - 1
          = (Token.bytes (event.tokens heard)).length + volume heard rest := by
        rw [volume_cons]
        omega
      rw [hless]
      cases event with
      | bytes chunk =>
          rw [show Token.bytes (StreamEvent.tokens heard (.bytes chunk)) = chunk from Token.bytes_map chunk]
          refine volume_chunk magic hw hrest (fun reader' habsorb hwaits => ?_) fun r left habsorb => ?_
          · simp only [read, habsorb]
            exact ih hwaits none hrest
          · simp only [read, habsorb]
      | frame f =>
          rw [show Token.bytes (StreamEvent.tokens heard (.frame f)) = f.bytes heard from Token.bytes_map _]
          refine volume_chunk magic hw hrest (fun reader' habsorb hwaits => ?_) fun r left habsorb => ?_
          · simp only [read, habsorb]
            exact ih hwaits none hrest
          · simp only [read, habsorb]
      | eof | fault kind | notReady => exact ⟨hrest, Nat.le_add_left ..⟩
      | delay span => exact nomatch hrun (.delay span) List.mem_cons_self
      | hold => exact nomatch hrun .hold List.mem_cons_self

end Script

/-! ## Repeated reads -/

namespace Reader

/-- The results among some answers that come from frames. -/
def frames (polls : List (Poll Result)) : List Result :=
  polls.filterMap fun
    | .ready r => if isStop r then none else some r
    | .waiting _ => none

/-- The failures of the stream that some answers report. -/
def stops (polls : List (Poll Result)) : List TransportFault :=
  polls.filterMap fun
    | .ready (.error fault) => if isStop (.error fault) then some fault else none
    | _ => none

end Reader

namespace Link

/-- What is to come from a link: what its reader holds, and then its script. -/
def unread (link : Link) : List Token :=
  link.reader.held.map .byte ++ Script.tokens link.heard link.script.events

theorem bytes_unread (link : Link) :
    Token.bytes link.unread
      = link.reader.held ++ Token.bytes (Script.tokens link.heard link.script.events) := by
  rw [unread, Token.bytes_append, Token.bytes_map]

theorem stops_unread (link : Link) :
    Token.stops link.unread = Token.stops (Script.tokens link.heard link.script.events) := by
  rw [unread, Token.stops_append, Token.stops_map, List.nil_append]

/-- Receive at some instants, one after the other. What is not ready is given up until the next. -/
def receives : List Nat → Link → Link × List (Poll Reader.Result)
  | [], link => (link, [])
  | now :: later, link =>
    let (link, poll) := link.receive now
    let (link, polls) := link.receives later
    (link, poll :: polls)

theorem receive_takes {link : Link} (hw : link.reader.Waits) (now : Nat) :
    Script.Takes link.magic link.heard link.unread
      ⟨(link.receive now).1.reader, (link.receive now).1.script, (link.receive now).2⟩ :=
  Script.read_takes hw _ _

/-- A link after some receives, and what they gave. -/
structure Reassembled (link link' : Link) (polls : List (Poll Reader.Result)) : Prop where
  /-- Nothing is held beyond the current frame. -/
  part : link'.reader.Waits
  magic : link'.magic = link.magic
  heard : link'.heard = link.heard
  /-- The bytes that are gone are those of the frames received, and all others are still to come. -/
  bytes : ∃ taken, Token.bytes link.unread = taken ++ Token.bytes link'.unread ∧
    ∀ more, Frame.cut link.magic (taken ++ more) = Reader.frames polls ++ Frame.cut link.magic more
  /-- Every failure of the stream is reported once, and none besides, except that the end of the stream is
      reported whenever it is met. -/
  stops : ∃ ends, Reader.stops polls ++ Token.stops link'.unread
      = Token.stops link.unread ++ List.replicate ends .endOfStream ∧
    (0 < ends → link'.script.events = [])
  empty : link.script.events = [] → link'.script.events = []

theorem Reassembled.refl {link : Link} (hw : link.reader.Waits) : Reassembled link link [] where
  part := hw
  magic := rfl
  heard := rfl
  bytes := ⟨[], rfl, fun _ => rfl⟩
  stops := ⟨0, (List.append_nil _).symm, fun h => nomatch h⟩
  empty := id

theorem Reassembled.of_takes {link : Link} {s : ScriptRead}
    (htakes : Script.Takes link.magic link.heard link.unread s)
    (empty : link.script.events = [] → s.script.events = []) :
    Reassembled link { link with reader := s.reader, script := s.script } [s.outcome] := by
  cases htakes with
  | waits reader script wake part split =>
      exact ⟨part, rfl, rfl, ⟨[], congrArg Token.bytes split, fun _ => rfl⟩,
        ⟨0, (congrArg Token.stops split).symm.trans (List.append_nil _).symm, fun h => nomatch h⟩, empty⟩
  | stops reader script fault part stop split =>
      have hframes : Reader.frames [.ready (.error fault)] = [] := by
        simp [Reader.frames, stop]
      have hstops : Reader.stops [.ready (.error fault)] = [fault] := by
        simp [Reader.stops, stop]
      refine ⟨part, rfl, rfl, ⟨[], ?_, fun _ => by rw [hframes]; rfl⟩, ⟨0, ?_, fun h => nomatch h⟩, empty⟩
      · rw [split]
        simp [unread]
      · rw [split, hstops]
        simp [unread]
  | ends reader part split =>
      refine ⟨part, rfl, rfl, ⟨[], ?_, fun _ => rfl⟩, ⟨1, ?_, fun _ => rfl⟩, empty⟩
      · rw [split]
        simp [unread]
      · rw [split]
        simp [unread, Reader.stops, Reader.isStop]
  | frame taken script r next split =>
      have hstop := Frame.isStop_of_next? (next [])
      have hframes : Reader.frames [.ready r] = [r] := by
        simp [Reader.frames, hstop]
      have hstops : Reader.stops [.ready r] = [] := by
        cases r <;> simp [Reader.stops, hstop]
      refine ⟨Reader.waits_start, rfl, rfl, ⟨taken, ?_, fun more => ?_⟩, ⟨0, ?_, fun h => nomatch h⟩, empty⟩
      · rw [split]
        simp [unread, Reader.held, Reader.start]
      · rw [hframes, Frame.cut_of_some (next more)]
        rfl
      · rw [split, hstops]
        simp [unread, Reader.held, Reader.start]

/-- One receive takes the bytes of a frame, or none for good. -/
theorem receive_reassembled {link : Link} (hw : link.reader.Waits) (now : Nat) :
    Reassembled link (link.receive now).1 [(link.receive now).2] := by
  refine Reassembled.of_takes (receive_takes hw now) fun hevents => ?_
  show (Script.read link.magic link.heard now link.reader link.script.until? link.script.events).script.events
    = []
  rw [hevents]
  rfl

theorem Reassembled.trans {link₀ link₁ link₂ : Link} {polls polls' : List (Poll Reader.Result)}
    (first : Reassembled link₀ link₁ polls) (second : Reassembled link₁ link₂ polls') :
    Reassembled link₀ link₂ (polls ++ polls') := by
  obtain ⟨taken, hbytes, hcut⟩ := first.bytes
  obtain ⟨taken', hbytes', hcut'⟩ := second.bytes
  obtain ⟨ends, hstops, hends⟩ := first.stops
  obtain ⟨ends', hstops', hends'⟩ := second.stops
  have hframes : Reader.frames (polls ++ polls') = Reader.frames polls ++ Reader.frames polls' :=
    List.filterMap_append
  have hboth : Reader.stops (polls ++ polls') = Reader.stops polls ++ Reader.stops polls' :=
    List.filterMap_append
  refine ⟨second.part, second.magic.trans first.magic, second.heard.trans first.heard,
    ⟨taken ++ taken', ?_, fun more => ?_⟩, ⟨ends + ends', ?_, fun hpos => ?_⟩,
    fun h => second.empty (first.empty h)⟩
  · rw [hbytes, hbytes', List.append_assoc]
  · rw [first.magic] at hcut'
    rw [List.append_assoc, hcut, hcut', hframes, List.append_assoc]
  · rw [hboth, List.append_assoc, hstops', ← List.append_assoc, hstops, List.append_assoc,
      List.replicate_append_replicate]
  · rcases Nat.eq_zero_or_pos ends' with hzero | hpos'
    · exact second.empty (hends (by omega))
    · exact hends' hpos'

theorem receives_reassembled {link : Link} (hw : link.reader.Waits) (instants : List Nat) :
    Reassembled link (link.receives instants).1 (link.receives instants).2 := by
  induction instants generalizing link with
  | nil => exact .refl hw
  | cons now later ih =>
      have hfirst := receive_reassembled hw now
      exact hfirst.trans (ih hfirst.part)

/-- Receives get to the end of a script that does not pause, and each brings it nearer. -/
theorem receives_volume {link : Link} (hw : link.reader.Waits)
    (hrun : ∀ event ∈ link.script.events, event.isPause = false) (instants : List Nat) :
    Script.volume link.heard (link.receives instants).1.script.events
      ≤ Script.volume link.heard link.script.events - instants.length := by
  induction instants generalizing link with
  | nil => exact Nat.le_refl _
  | cons now later ih =>
      have hfirst := receive_reassembled hw now
      obtain ⟨hrun', hless⟩ := @Script.read_volume link.magic link.heard now link.reader
        hw link.script.until? link.script.events hrun
      have hrest := ih hfirst.part hrun'
      have hsame : Script.volume link.heard (link.receives (now :: later)).1.script.events
          ≤ Script.volume link.heard (link.receive now).1.script.events - later.length := hrest
      have hstep : Script.volume link.heard (link.receive now).1.script.events
          ≤ Script.volume link.heard link.script.events - 1 := hless
      rw [List.length_cons]
      omega

theorem length_receives (instants : List Nat) (link : Link) :
    (link.receives instants).2.length = instants.length := by
  induction instants generalizing link with
  | nil => rfl
  | cons now later ih => exact congrArg (· + 1) (ih (link.receive now).1)

/-- What repeated reads of some events have given and left, beside the bytes of all the events. -/
structure CutsAtOnce (magic : Magic) (heard : Heard) (events : List StreamEvent) (link : Link)
    (polls : List (Poll Reader.Result)) : Prop where
  /-- The results so far are those of bytes that are gone for good, all whole frames. -/
  taken : ∃ taken, Token.bytes (Script.tokens heard events)
      = taken ++ (link.reader.held ++ Token.bytes (Script.tokens heard link.script.events)) ∧
    ∀ more, Frame.cut magic (taken ++ more) = Reader.frames polls ++ Frame.cut magic more
  /-- What the reader holds is not yet a result, so nothing was taken beyond the current frame. -/
  part : Frame.next? magic link.reader.held = none
  /-- Each failure met is reported once, in order, and no other. Behind the last event every read meets the
      end of the stream. -/
  stops : ∃ ends, Reader.stops polls ++ Token.stops (Script.tokens heard link.script.events)
      = Token.stops (Script.tokens heard events) ++ List.replicate ends .endOfStream ∧
    (0 < ends → link.script.events = [])
  /-- Enough reads of events that never pause give all results there are. -/
  complete : (∀ event ∈ events, event.isPause = false) → Script.volume heard events ≤ polls.length →
    link.script.events = [] ∧
      Reader.frames polls = Frame.cut magic (Token.bytes (Script.tokens heard events))

/-- **Reads do not depend on how bytes arrive.** Whatever events bring them and whenever it is read, the
    results but for failures of the stream are those of cutting all bytes at once, no byte is lost or taken
    too early, and the failures reported are those that occur. -/
theorem reads_cut_at_once (magic : Magic) (heard : Heard) (events : List StreamEvent)
    (instants : List Nat) :
    CutsAtOnce magic heard events
      (({ magic, heard, script := ⟨events, none⟩ } : Link).receives instants).1
      (({ magic, heard, script := ⟨events, none⟩ } : Link).receives instants).2 := by
  have hreads := @receives_reassembled { magic, heard, script := ⟨events, none⟩ }
    Reader.waits_start instants
  have hvolume := fun hrun => @receives_volume { magic, heard, script := ⟨events, none⟩ }
    Reader.waits_start hrun instants
  have hlength := length_receives instants { magic, heard, script := ⟨events, none⟩ }
  obtain ⟨hpart, -, hheard, ⟨taken, hbytes, hcut⟩, ⟨ends, hstops, hends⟩, -⟩ := hreads
  rw [bytes_unread, bytes_unread, hheard] at hbytes
  rw [stops_unread, stops_unread, hheard] at hstops
  refine ⟨⟨taken, hbytes, hcut⟩, hpart.next?_held magic, ⟨ends, hstops, hends⟩, fun hrun henough => ?_⟩
  have hempty : (({ magic, heard, script := ⟨events, none⟩ } : Link).receives instants).1.script.events
      = [] := by
    have hleft := hvolume hrun
    rw [← hlength] at hleft
    refine List.length_eq_zero_iff.mp ?_
    have hdone := Nat.sub_eq_zero_of_le henough
    simp only [Script.volume] at hleft hdone
    omega
  refine ⟨hempty, ?_⟩
  have hall := hcut (({ magic, heard, script := ⟨events, none⟩ } : Link).receives instants).1.reader.held
  rw [Frame.cut_of_none (hpart.next?_held magic), List.append_nil] at hall
  rw [← hall]
  rw [hempty, Script.tokens_nil] at hbytes
  exact congrArg (Frame.cut magic) (hbytes.trans (congrArg _ (List.append_nil _))).symm

end Link

end BitcoinCrawl
