import BitcoinCrawl.Net.Chain
import BitcoinCrawl.Proofs.Transport.Chunks
import BitcoinCrawl.Proofs.Wire.RoundTrip
import Mathlib.Tactic.SplitIfs

set_option autoImplicit false

/-! # Frames in, results out

A stream that is made of whole frames gives one result for each, whoever made them, and a result that a frame
brought leaves the reader on the boundary behind that frame. -/

namespace BitcoinCrawl

/-- Whether a result says that the reader stands behind a whole frame. -/
def Reader.isAligned : Result → Bool
  | .ok _ => true
  | .error fault => fault.isRecoverable

theorem Reader.isAligned_of_isStop {r : Result} (h : isStop r = true) : isAligned r = false := by
  cases r with
  | ok m => cases h
  | error fault => cases fault <;> first | rfl | cases h

/-- What is wrong with a complete frame costs that frame and no more. -/
theorem Frame.isAligned_decode (magic : Magic) (frame : Bytes) :
    Reader.isAligned (decode magic frame) = true := by
  unfold decode
  split
  · rfl
  · split_ifs
    · rfl
    · split <;> rfl

/-- A frame of the length that its header announces, which is no more than is accepted. Nothing else about it
    needs to be right. -/
structure WholeFrame where
  bytes : Bytes
  whole : bytes.length = Frame.headerSize + Frame.lengthOf bytes
  small : Frame.lengthOf bytes ≤ maxPayload

namespace WholeFrame

theorem next?_append (frame : WholeFrame) (magic : Magic) (more : Bytes) :
    Frame.next? magic (frame.bytes ++ more) = some (Frame.decode magic frame.bytes, more) := by
  have hwhole := frame.whole
  have hlength : Frame.lengthOf (frame.bytes ++ more) = Frame.lengthOf frame.bytes :=
    Frame.lengthOf_append more (by omega)
  rw [Frame.next?_of_complete (by rw [hlength, List.length_append]; omega) (by rw [hlength]; exact frame.small),
    hlength, List.take_left' hwhole, List.drop_left' hwhole]

/-- An aligned result was brought by a whole frame at the front. -/
theorem of_next? {magic : Magic} {taken : Bytes} {r : Reader.Result}
    (h : ∀ more, Frame.next? magic (taken ++ more) = some (r, more)) (haligned : Reader.isAligned r = true) :
    ∃ frame : WholeFrame, frame.bytes = taken ∧ Frame.decode magic frame.bytes = r := by
  have hexact := h []
  rw [List.append_nil] at hexact
  obtain ⟨hheader, ⟨-, rfl, -⟩ | ⟨hsmall, hcomplete, hr, hrest⟩⟩ := Frame.next?_cases hexact
  · cases haligned
  · have hlength := List.drop_eq_nil_iff.mp hrest.symm
    rw [List.take_of_length_le hlength] at hr
    exact ⟨⟨taken, Nat.le_antisymm hlength hcomplete, hsmall⟩, rfl, hr.symm⟩

end WholeFrame

/-! ## What a stream is made of -/

/-- An item of a stream: a message written by us, of a kind that its own reader gives back, or a frame that
    anyone made up. -/
inductive Parcel (magic : Magic) where
  | written (m : Message) (codec : Frame.content (Frame.encode magic m) = .ok (.known m))
      (small : m.encode.length ≤ maxPayload)
  | foreign (frame : WholeFrame)

namespace Parcel

variable {magic : Magic}

/-- The bytes on the wire, for a message those that sending it to a peer writes. -/
def bytes : Parcel magic → Bytes
  | written m _ _ => (({ magic, script := ⟨[], none⟩ } : Link).send m).1.sent.toList.flatten
  | foreign frame => frame.bytes

/-- What reading the item gives. -/
def result : Parcel magic → Reader.Result
  | written m _ _ => .ok m
  | foreign frame => Frame.decode magic frame.bytes

/-- What is written for a message is a whole frame. -/
def frameOf (magic : Magic) (m : Message) (small : m.encode.length ≤ maxPayload) : WholeFrame where
  bytes := Frame.encode magic m
  whole := by
    rw [Frame.encode, Frame.length_build _ _ magic.length_eq, Frame.lengthOf_build _ _ magic.length_eq]
    exact Nat.lt_of_le_of_lt small (by decide)
  small := by
    rw [Frame.encode, Frame.lengthOf_build _ _ magic.length_eq]
    · exact small
    · exact Nat.lt_of_le_of_lt small (by decide)

theorem next?_bytes (parcel : Parcel magic) (more : Bytes) :
    Frame.next? magic (parcel.bytes ++ more) = some (parcel.result, more) := by
  cases parcel with
  | foreign frame => exact frame.next?_append magic more
  | written m codec small =>
      have hbytes : (written m codec small).bytes = (frameOf magic m small).bytes := List.append_nil _
      rw [hbytes, (frameOf magic m small).next?_append, frameOf, Frame.decode_encode codec]
      rfl

end Parcel

/-! ## Messages that are read back -/

/-- A message that comes back from its frame as it was. -/
structure Message.Plain (m : Message) : Prop where
  regular : m.Regular
  small : m.encode.length ≤ maxPayload

namespace Message.Plain

variable {m : Message}

theorem decode (h : m.Plain) (magic : Magic) : Frame.decode magic (Frame.encode magic m) = .ok m :=
  Frame.decode_encode (Frame.content_encode magic h.regular h.small)

/-- Its frame is taken off the front of a stream. -/
theorem next?_append (h : m.Plain) (magic : Magic) (more : Bytes) :
    Frame.next? magic (Frame.encode magic m ++ more) = some (.ok m, more) := by
  rw [← h.decode magic]
  exact (Parcel.frameOf magic m h.small).next?_append magic more

theorem length_encode (h : m.Plain) (magic : Magic) :
    (Frame.encode magic m).length ≤ Frame.headerSize + maxPayload := by
  rw [Frame.encode, Frame.length_build _ _ magic.length_eq]
  exact Nat.add_le_add_left h.small _

end Message.Plain

theorem verack_plain : Message.verack.Plain where
  regular := trivial
  small := by decide

/-! ## Reading chunks -/

namespace Script

variable {magic : Magic} {reader : Reader} (heard : Heard) (now : Nat)

/-- If there is a result in some chunks, a read gives it and leaves the chunks behind it. -/
theorem read_chunks_of_some {r : Reader.Result} {rest : Bytes} (hw : reader.Waits) (chunks : List Bytes)
    (tail : List StreamEvent) (h : Frame.next? magic (reader.held ++ chunks.flatten) = some (r, rest)) :
    ∃ chunks' : List Bytes, chunks'.flatten = rest ∧ chunks'.length ≤ chunks.length ∧
      read magic heard now reader none (chunks.map .bytes ++ tail)
        = ⟨.start, ⟨chunks'.map .bytes ++ tail, none⟩, .ready r⟩ := by
  induction chunks generalizing reader with
  | nil =>
      rw [List.flatten_nil, List.append_nil, hw.next?_held magic] at h
      cases h
  | cons chunk chunks ih =>
      rw [List.flatten_cons, ← List.append_assoc] at h
      have hspec := Reader.absorb_spec magic hw chunk
      simp only [List.map_cons, List.cons_append, read]
      cases habsorb : reader.absorb magic chunk with
      | all reader' =>
          rw [habsorb] at hspec
          obtain ⟨_, hkept, hwaits⟩ := hspec
          obtain ⟨chunks', hrest, hfewer, hread⟩ := ih hwaits (by rw [hkept]; exact h)
          exact ⟨chunks', hrest, Nat.le_succ_of_le hfewer, hread⟩
      | result r' left =>
          rw [habsorb] at hspec
          obtain ⟨_, _, hnext⟩ | ⟨_, _, hnext⟩ := hspec
          rw [Frame.next?_append chunks.flatten hnext] at h
          cases h
          exact ⟨left :: chunks, rfl, Nat.le_refl _, rfl⟩

/-- If there is none, a read takes all chunks and goes on behind them. -/
theorem read_chunks_of_none (hw : reader.Waits) (chunks : List Bytes) (tail : List StreamEvent)
    (h : Frame.next? magic (reader.held ++ chunks.flatten) = none) :
    ∃ reader', reader'.Waits ∧ reader'.held = reader.held ++ chunks.flatten ∧
      read magic heard now reader none (chunks.map .bytes ++ tail) = read magic heard now reader' none tail := by
  induction chunks generalizing reader with
  | nil => exact ⟨reader, hw, (List.append_nil _).symm, rfl⟩
  | cons chunk chunks ih =>
      rw [List.flatten_cons, ← List.append_assoc] at h ⊢
      have hspec := Reader.absorb_spec magic hw chunk
      simp only [List.map_cons, List.cons_append, read]
      cases habsorb : reader.absorb magic chunk with
      | all reader' =>
          rw [habsorb] at hspec
          obtain ⟨_, hkept, hwaits⟩ := hspec
          rw [← hkept] at h ⊢
          exact ih hwaits h
      | result r' left =>
          rw [habsorb] at hspec
          obtain ⟨_, _, hnext⟩ | ⟨_, _, hnext⟩ := hspec
          rw [Frame.next?_append chunks.flatten hnext] at h
          cases h

/-- An aligned result was brought by one whole frame, which is all that its read took. -/
theorem Takes.aligned {heard : Heard} {before : List Token} {s : ScriptRead} {r : Reader.Result}
    (h : Takes magic heard before s) (hready : s.outcome = .ready r) (haligned : Reader.isAligned r = true) :
    s.reader = .start ∧ ∃ frame : WholeFrame, Frame.decode magic frame.bytes = r ∧
      before = frame.bytes.map .byte ++ tokens heard s.script.events := by
  cases h with
  | waits => cases hready
  | stops _ _ fault _ hstop =>
      cases hready
      rw [Reader.isAligned_of_isStop hstop] at haligned
      cases haligned
  | ends => cases hready; cases haligned
  | frame taken _ _ hnext hsplit =>
      cases hready
      obtain ⟨frame, rfl, hdecode⟩ := WholeFrame.of_next? hnext haligned
      exact ⟨rfl, frame, hdecode, hsplit⟩

end Script

namespace Link

variable {magic : Magic}

/-- Behind the last event every read finds the end of the stream. -/
theorem receives_ended (link : Link) (instants : List Nat) :
    ({ link with script := ⟨[], none⟩ }.receives instants).2
      = List.replicate instants.length (.ready (.error .endOfStream)) := by
  induction instants with
  | nil => rfl
  | cons now later ih =>
      rw [List.length_cons, List.replicate_succ, ← ih]
      rfl

/-- Each item of a stream gives its result, and then the stream is at its end. -/
theorem receives_parcels (link : Link) (parcels : List (Parcel link.magic)) (chunks : List Bytes)
    (instants : List Nat) (hbytes : chunks.flatten = (parcels.map Parcel.bytes).flatten)
    (henough : parcels.length ≤ instants.length) :
    ({ link with reader := .start, script := ⟨chunks.map .bytes, none⟩ }.receives instants).2
      = parcels.map (.ready ·.result)
        ++ List.replicate (instants.length - parcels.length) (.ready (.error .endOfStream)) := by
  induction parcels generalizing chunks instants with
  | nil =>
      cases instants with
      | nil => rfl
      | cons now later =>
          have hnone : Frame.next? link.magic (Reader.start.held ++ chunks.flatten) = none := by
            rw [hbytes]
            rfl
          obtain ⟨reader, -, -, hread⟩ := Script.read_chunks_of_none link.heard now
            Reader.waits_start chunks [] hnone
          rw [List.append_nil] at hread
          simp only [receives, receive, hread, Script.read, receives_ended { link with reader } later]
          rfl
  | cons parcel parcels ih =>
      cases instants with
      | nil => cases henough
      | cons now later =>
          rw [List.map_cons, List.flatten_cons] at hbytes
          have hnext : Frame.next? link.magic (Reader.start.held ++ chunks.flatten)
              = some (parcel.result, (parcels.map Parcel.bytes).flatten) := by
            rw [hbytes]
            exact parcel.next?_bytes _
          obtain ⟨chunks', hrest, -, hread⟩ := Script.read_chunks_of_some link.heard now
            Reader.waits_start chunks [] hnext
          rw [List.append_nil, List.append_nil] at hread
          simp only [receives, receive, hread, ih chunks' later hrest (Nat.le_of_succ_le_succ henough),
            List.map_cons, List.length_cons, Nat.add_sub_add_right, List.cons_append]

/-- What repeated reads make of frames. -/
structure Resynchronises (magic : Magic) : Prop where
  /-- A stream of whole frames gives the result of each, in order, and then its end. -/
  inOrder : ∀ (parcels : List (Parcel magic)) (chunks : List Bytes) (instants : List Nat),
    chunks.flatten = (parcels.map Parcel.bytes).flatten → parcels.length ≤ instants.length →
    (({ magic, script := ⟨chunks.map .bytes, none⟩ } : Link).receives instants).2
      = parcels.map (.ready ·.result)
        ++ List.replicate (instants.length - parcels.length) (.ready (.error .endOfStream))
  /-- The result of a frame depends on nothing else, and is a message or a fault that can be passed over. -/
  aligned : ∀ frame : Bytes, Reader.isAligned (Frame.decode magic frame) = true
  /-- Whatever came before on any stream, behind such a result the reader holds nothing, and has taken one
      whole frame since the result before it. -/
  boundary : ∀ (heard : Heard) (events : List StreamEvent) (instants : List Nat) (now : Nat)
      (r : Reader.Result) (link : Link),
    link = (({ magic, heard, script := ⟨events, none⟩ } : Link).receives instants).1 →
    (link.receive now).2 = .ready r → Reader.isAligned r = true →
    (link.receive now).1.reader = .start ∧ ∃ frame : WholeFrame, Frame.decode magic frame.bytes = r ∧
      link.unread = frame.bytes.map .byte ++ (link.receive now).1.unread

/-- **Framing.** Whatever whole frames a stream is made of, ours come back as they were written, and every
    other one costs its own bytes and nothing of those behind it. -/
theorem reads_resynchronise (magic : Magic) : Resynchronises magic where
  inOrder parcels chunks instants := receives_parcels { magic, script := ⟨[], none⟩ } parcels chunks instants
  aligned := Frame.isAligned_decode magic
  boundary heard events instants now r link hlink hready haligned := by
    have hreads := @receives_reassembled { magic, heard, script := ⟨events, none⟩ }
      Reader.waits_start instants
    rw [← hlink] at hreads
    obtain ⟨hreader, frame, hdecode, hsplit⟩ := (receive_takes hreads.part now).aligned hready haligned
    rw [hreads.magic] at hdecode
    have hstart : (link.receive now).1.reader = .start := hreader
    refine ⟨hstart, frame, hdecode, hsplit.trans ?_⟩
    rw [unread, hstart]
    rfl

/-- A ping of ours, one from another network behind it, and the end. -/
theorem reads_ping_and_stranger :
    (({ magic := Chain.magic .bitcoin,
        script := ⟨[.bytes (Frame.encode (Chain.magic .bitcoin) (.ping 7)),
          .bytes (Frame.encode (Chain.magic .testnet) (.ping 7))], none⟩ } : Link).receives [0, 0, 0]).2
      = [.ready (.ok (.ping 7)), .ready (.error .wrongMagic), .ready (.error .endOfStream)] := by
  have hsmall : (Message.ping 7).encode.length ≤ maxPayload := by decide
  have hours := Frame.content_encode (Chain.magic .bitcoin) (m := .ping 7) trivial hsmall
  have htheirs : Frame.decode (Chain.magic .bitcoin) (Frame.encode (Chain.magic .testnet) (.ping 7))
      = .error .wrongMagic :=
    Frame.decode_encode_of_ne (by decide) (Frame.content_encode _ trivial hsmall)
  rw [← htheirs]
  exact (reads_resynchronise (Chain.magic .bitcoin)).inOrder
    [.written (.ping 7) hours hsmall, .foreign (Parcel.frameOf (Chain.magic .testnet) (.ping 7) hsmall)]
    _ [0, 0, 0] rfl (Nat.le_succ 2)

end Link

end BitcoinCrawl
