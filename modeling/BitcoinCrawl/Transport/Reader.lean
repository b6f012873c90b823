import BitcoinCrawl.Wire.Frame

set_option autoImplicit false

/-! # Reading frames from chunks

Bytes arrive in chunks of any size. `Reader` keeps what a frame has so far: up to a full header, and then
the header with a part of the payload it announces. `Reader.absorb` gives it one chunk and stops at the
first result, handing back the bytes behind it, so nothing is ever taken beyond the current frame.

`Frame.cut` says the same of a whole byte string at once: it is what the results of a reader are measured
against. -/

namespace BitcoinCrawl

/-! ## The reader -/

/-- Progress within one frame. -/
inductive Reader where
  /-- Fewer than 24 bytes of a header. -/
  | header (filled : Bytes)
  /-- A header and the payload so far, with the number of bytes still missing. -/
  | payload (filled : Array UInt8) (missing : Nat)
  deriving DecidableEq

namespace Reader

/-- A reader on a frame boundary. -/
def start : Reader := .header []

/-- Result of one frame. -/
abbrev Result := Except TransportFault Message

/-- What became of a chunk. -/
inductive Absorbed where
  /-- All of it was taken and the frame is still incomplete. -/
  | all (reader : Reader)
  /-- A result, and the part of the chunk behind it. The reader is on a frame boundary. -/
  | result (result : Result) (rest : Bytes)

/-- Take what is missing of a payload from a chunk. A complete frame is decoded. -/
def absorbPayload (magic : Magic) (filled : Array UInt8) (missing : Nat) (chunk : Bytes) : Absorbed :=
  let front := chunk.take missing
  let filled := filled ++ front
  if front.length = missing then
    .result (Frame.decode magic filled.toList) (chunk.drop missing)
  else .all (.payload filled (missing - front.length))

/-- Take what is missing of the current frame from a chunk. A header that announces too large a payload
    is a result by itself. -/
def absorb (magic : Magic) (reader : Reader) (chunk : Bytes) : Absorbed :=
  match reader with
  | payload filled missing => absorbPayload magic filled missing chunk
  | header filled =>
    let front := chunk.take (Frame.headerSize - filled.length)
    let filled := filled ++ front
    if filled.length < Frame.headerSize then .all (.header filled)
    else
      let rest := chunk.drop front.length
      let length := Frame.lengthOf filled
      if maxPayload < length then .result (.error (.oversized length)) rest
      else absorbPayload magic filled.toArray length rest

end Reader

/-! ## The same on a whole byte string -/

namespace Frame

/-- The first result in a byte string and the bytes behind it, if there is a whole frame or an oversized
    header. -/
def next? (magic : Magic) (bytes : Bytes) : Option (Reader.Result × Bytes) :=
  let header := bytes.take headerSize
  let behind := bytes.drop headerSize
  if header.length < headerSize then none
  else if maxPayload < lengthOf header then some (.error (.oversized (lengthOf header)), behind)
  else
    let payload := behind.take (lengthOf header)
    if payload.length < lengthOf header then none
    else some (decode magic (header ++ payload), behind.drop (lengthOf header))

theorem length_of_next? {magic : Magic} {bytes rest : Bytes} {r : Reader.Result}
    (h : next? magic bytes = some (r, rest)) : rest.length < bytes.length := by
  have hs : headerSize = 24 := rfl
  simp only [next?] at h
  split at h
  · simp at h
  rename_i hh
  simp only [List.length_take, hs] at hh
  split at h
  · simp only [Option.some.injEq, Prod.mk.injEq] at h
    obtain ⟨_, rfl⟩ := h
    simp only [List.length_drop, hs]
    omega
  split at h
  · simp at h
  · simp only [Option.some.injEq, Prod.mk.injEq] at h
    obtain ⟨_, rfl⟩ := h
    simp only [List.length_drop, hs]
    omega

/-- All results in a byte string, in order, up to an incomplete frame at its end. -/
def cut (magic : Magic) (bytes : Bytes) : List Reader.Result :=
  match _h : next? magic bytes with
  | none => []
  | some (r, rest) => r :: cut magic rest
termination_by bytes.length
decreasing_by exact length_of_next? _h

end Frame

end BitcoinCrawl
