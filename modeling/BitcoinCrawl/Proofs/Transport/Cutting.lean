import BitcoinCrawl.Transport.Reader
import Mathlib.Tactic.SplitIfs

set_option autoImplicit false

/-! # Cutting bytes into frames

`Frame.next?` takes the first result off a byte string. What it takes depends on nothing behind it
(`next?_split`), so bytes can be cut as they come: a reader that is given one chunk after another holds what
no result could be made of, and gives the results that cutting gives (`Reader.absorb_spec`). -/

namespace BitcoinCrawl

namespace Frame

variable {magic : Magic} {bytes rest : Bytes} {r : Reader.Result}

/-- The length field lies within the header. -/
theorem lengthOf_take (bytes : Bytes) : lengthOf (bytes.take headerSize) = lengthOf bytes := by
  simp only [lengthOf, List.drop_take, List.take_take]
  rfl

theorem lengthOf_append (more : Bytes) (h : headerSize ≤ bytes.length) :
    lengthOf (bytes ++ more) = lengthOf bytes := by
  rw [← lengthOf_take (bytes ++ more), List.take_append_of_le_length h, lengthOf_take]

/-- Less than a header gives no result. -/
theorem next?_of_short (h : bytes.length < headerSize) : next? magic bytes = none := by
  have hshort : (bytes.take headerSize).length < headerSize := by
    rw [List.length_take]
    omega
  simp only [next?]
  rw [if_pos hshort]

/-- A header that announces too much is a result by itself. -/
theorem next?_of_oversized (h : headerSize ≤ bytes.length) (hlarge : maxPayload < lengthOf bytes) :
    next? magic bytes = some (.error (.oversized (lengthOf bytes)), bytes.drop headerSize) := by
  have hheader : ¬ (bytes.take headerSize).length < headerSize := by
    rw [List.length_take]
    omega
  simp only [next?, lengthOf_take]
  rw [if_neg hheader, if_pos hlarge]

/-- With a payload of the announced length a frame is complete. -/
theorem next?_of_complete (h : headerSize + lengthOf bytes ≤ bytes.length)
    (hsmall : lengthOf bytes ≤ maxPayload) :
    next? magic bytes = some (decode magic (bytes.take (headerSize + lengthOf bytes)),
      bytes.drop (headerSize + lengthOf bytes)) := by
  have hheader : ¬ (bytes.take headerSize).length < headerSize := by
    rw [List.length_take]
    omega
  have hpayload : ¬ ((bytes.drop headerSize).take (lengthOf bytes)).length < lengthOf bytes := by
    rw [List.length_take, List.length_drop]
    omega
  simp only [next?, lengthOf_take]
  rw [if_neg hheader, if_neg (Nat.not_lt_of_le hsmall), if_neg hpayload, List.take_add, List.drop_drop]

/-- A payload that is not complete gives no result. -/
theorem next?_of_incomplete (hsmall : lengthOf bytes ≤ maxPayload)
    (hlack : bytes.length < headerSize + lengthOf bytes) : next? magic bytes = none := by
  by_cases hheader : bytes.length < headerSize
  · exact next?_of_short hheader
  · have hfull : ¬ (bytes.take headerSize).length < headerSize := by
      rw [List.length_take]
      omega
    have hpayload : ((bytes.drop headerSize).take (lengthOf bytes)).length < lengthOf bytes := by
      rw [List.length_take, List.length_drop]
      omega
    simp only [next?, lengthOf_take]
    rw [if_neg hfull, if_neg (Nat.not_lt_of_le hsmall), if_pos hpayload]

/-- The two ways to a result: too long a payload was announced, or the announced one is there. -/
theorem next?_cases (h : next? magic bytes = some (r, rest)) :
    headerSize ≤ bytes.length ∧
      (maxPayload < lengthOf bytes ∧ r = .error (.oversized (lengthOf bytes)) ∧
          rest = bytes.drop headerSize ∨
        lengthOf bytes ≤ maxPayload ∧ headerSize + lengthOf bytes ≤ bytes.length ∧
          r = decode magic (bytes.take (headerSize + lengthOf bytes)) ∧
          rest = bytes.drop (headerSize + lengthOf bytes)) := by
  by_cases hheader : bytes.length < headerSize
  · rw [next?_of_short hheader] at h
    cases h
  · have hfull := Nat.le_of_not_lt hheader
    by_cases hlarge : maxPayload < lengthOf bytes
    · rw [next?_of_oversized hfull hlarge] at h
      cases h
      exact ⟨hfull, .inl ⟨hlarge, rfl, rfl⟩⟩
    · have hsmall := Nat.le_of_not_lt hlarge
      by_cases hlack : bytes.length < headerSize + lengthOf bytes
      · rw [next?_of_incomplete hsmall hlack] at h
        cases h
      · have hcomplete := Nat.le_of_not_lt hlack
        rw [next?_of_complete hcomplete hsmall] at h
        cases h
        exact ⟨hfull, .inr ⟨hsmall, hcomplete, rfl, rfl⟩⟩

/-- A result comes from bytes of its own at the front, whatever stands behind them. -/
theorem next?_split (h : next? magic bytes = some (r, rest)) :
    ∃ frame, bytes = frame ++ rest ∧ ∀ more, next? magic (frame ++ more) = some (r, more) := by
  obtain ⟨hfull, ⟨hlarge, rfl, rfl⟩ | ⟨hsmall, hcomplete, rfl, rfl⟩⟩ := next?_cases h
  · refine ⟨bytes.take headerSize, (List.take_append_drop _ _).symm, fun more => ?_⟩
    have hsize : (bytes.take headerSize).length = headerSize := by
      rw [List.length_take]
      omega
    have hlength : lengthOf (bytes.take headerSize ++ more) = lengthOf bytes := by
      rw [lengthOf_append more (Nat.le_of_eq hsize.symm), lengthOf_take]
    rw [next?_of_oversized (by rw [List.length_append]; omega) (by rwa [hlength]), hlength,
      List.drop_left' hsize]
  · refine ⟨bytes.take (headerSize + lengthOf bytes), (List.take_append_drop _ _).symm, fun more => ?_⟩
    have hsize : (bytes.take (headerSize + lengthOf bytes)).length = headerSize + lengthOf bytes := by
      rw [List.length_take]
      omega
    have hlength : lengthOf (bytes.take (headerSize + lengthOf bytes) ++ more) = lengthOf bytes := by
      rw [lengthOf_append more (by omega), ← lengthOf_take, List.take_take,
        Nat.min_eq_left (Nat.le_add_right ..), lengthOf_take]
    rw [next?_of_complete (by rw [List.length_append]; omega) (by rwa [hlength]), hlength,
      List.take_left' hsize, List.drop_left' hsize]

theorem next?_append (more : Bytes) (h : next? magic bytes = some (r, rest)) :
    next? magic (bytes ++ more) = some (r, rest ++ more) := by
  obtain ⟨frame, rfl, hframe⟩ := next?_split h
  rw [List.append_assoc]
  exact hframe (rest ++ more)

theorem cut_of_none (h : next? magic bytes = none) : cut magic bytes = [] := by
  rw [cut]
  split
  next => rfl
  next hsome => cases h.symm.trans hsome

theorem cut_of_some (h : next? magic bytes = some (r, rest)) :
    cut magic bytes = r :: cut magic rest := by
  rw [cut]
  split
  next hnone => cases hnone.symm.trans h
  next hsome =>
    cases h.symm.trans hsome
    rfl

end Frame

/-! ## What a reader holds -/

namespace Reader

/-- The bytes of the frame a reader is in the middle of. -/
def held : Reader → Bytes
  | header filled => filled
  | payload filled _ => filled.toList

/-- A reader holds less than a frame: a part of a header, or a header whose announced payload lacks as much
    as the reader takes to be missing. -/
def Waits : Reader → Prop
  | header filled => filled.length < Frame.headerSize
  | payload filled missing =>
    Frame.headerSize ≤ filled.size ∧ Frame.lengthOf filled.toList ≤ maxPayload ∧
      filled.size + missing = Frame.headerSize + Frame.lengthOf filled.toList ∧ 0 < missing

variable {magic : Magic} {reader reader' : Reader} {chunk left : Bytes} {r : Result}

theorem waits_start : start.Waits := Nat.zero_lt_succ _

/-- Nothing is held beyond the current frame. -/
theorem Waits.next?_held (hw : reader.Waits) (magic : Magic) : Frame.next? magic reader.held = none := by
  cases reader with
  | header filled => exact Frame.next?_of_short hw
  | payload filled missing =>
      obtain ⟨hheader, hsmall, hsum, hpos⟩ := hw
      refine @Frame.next?_of_incomplete magic filled.toList hsmall ?_
      rw [Array.length_toList]
      omega

/-- A payload for which enough has come is decoded with the frame it completes. -/
theorem absorbPayload_of_le {filled : Array UInt8} {missing : Nat} (h : missing ≤ chunk.length) :
    absorbPayload magic filled missing chunk
      = .result (Frame.decode magic (filled.toList ++ chunk.take missing)) (chunk.drop missing) := by
  have hlength : (chunk.take missing).length = missing := by
    rw [List.length_take]
    omega
  simp only [absorbPayload]
  rw [if_pos hlength, Array.toList_appendList]

/-- A payload that needs more than has come takes it all. -/
theorem absorbPayload_of_lt {filled : Array UInt8} {missing : Nat} (h : chunk.length < missing) :
    absorbPayload magic filled missing chunk
      = .all (.payload (filled ++ chunk) (missing - chunk.length)) := by
  have hall : chunk.take missing = chunk := List.take_of_length_le (Nat.le_of_lt h)
  simp only [absorbPayload, hall]
  rw [if_neg (Nat.ne_of_lt h)]

/-- What became of a chunk, told by the bytes alone. -/
inductive Absorbs (magic : Magic) (reader : Reader) (chunk : Bytes) : Absorbed → Prop
  | all (reader' : Reader) (kept : reader'.held = reader.held ++ chunk) (waits : reader'.Waits) :
      Absorbs magic reader chunk (.all reader')
  | result (r : Result) (left : Bytes)
      (next : Frame.next? magic (reader.held ++ chunk) = some (r, left)) :
      Absorbs magic reader chunk (.result r left)

/-- A payload takes what it lacks. It may lack nothing, as where an empty payload was announced: then the
    frame is complete before anything is taken. -/
theorem absorbPayload_spec (reader : Reader) (front : Bytes) {filled : Array UInt8} {missing : Nat}
    (hheld : reader.held ++ front = filled.toList) (hheader : Frame.headerSize ≤ filled.size)
    (hsmall : Frame.lengthOf filled.toList ≤ maxPayload)
    (hsum : filled.size + missing = Frame.headerSize + Frame.lengthOf filled.toList) (chunk : Bytes) :
    Absorbs magic reader (front ++ chunk) (absorbPayload magic filled missing chunk) := by
  have hsize : filled.toList.length = filled.size := Array.length_toList
  have hlength : Frame.lengthOf (filled.toList ++ chunk) = Frame.lengthOf filled.toList :=
    Frame.lengthOf_append chunk (by omega)
  by_cases henough : missing ≤ chunk.length
  · rw [absorbPayload_of_le henough]
    refine .result _ _ ?_
    have hcut : Frame.headerSize + Frame.lengthOf filled.toList = filled.toList.length + missing := by
      omega
    have hcomplete := @Frame.next?_of_complete magic (filled.toList ++ chunk)
      (by rw [hlength, List.length_append]; omega) (by rwa [hlength])
    rw [hlength, hcut, List.take_length_add_append, List.drop_length_add_append] at hcomplete
    rw [← List.append_assoc, hheld]
    exact hcomplete
  · have hlack := Nat.lt_of_not_le henough
    have hkept : (filled ++ chunk).toList = filled.toList ++ chunk := Array.toList_appendList
    have hgrown : (filled ++ chunk).size = filled.size + chunk.length := by
      rw [← Array.length_toList, hkept, List.length_append, hsize]
    rw [absorbPayload_of_lt hlack]
    refine .all _ ?_ ?_
    · rw [← List.append_assoc, hheld]
      exact hkept
    · simp only [Waits, hkept, hlength]
      omega

theorem absorb_spec (magic : Magic) (hw : reader.Waits) (chunk : Bytes) :
    Absorbs magic reader chunk (reader.absorb magic chunk) := by
  cases reader with
  | payload filled missing =>
      obtain ⟨hheader, hsmall, hsum, -⟩ := hw
      exact absorbPayload_spec (.payload filled missing) [] (List.append_nil _) hheader
        hsmall hsum chunk
  | header filled =>
      have hfilled : filled.length < Frame.headerSize := hw
      have hsplit := List.take_append_drop (Frame.headerSize - filled.length) chunk
      simp only [absorb]
      split_ifs with hshort hlarge
      · -- The chunk ends within the header, so the header takes all of it.
        rw [List.length_append, List.length_take] at hshort
        have hall : chunk.take (Frame.headerSize - filled.length) = chunk :=
          List.take_of_length_le (by omega)
        rw [hall]
        refine .all _ rfl ?_
        show (filled ++ chunk).length < Frame.headerSize
        rw [List.length_append]
        omega
      all_goals
        have hfront : (chunk.take (Frame.headerSize - filled.length)).length
            = Frame.headerSize - filled.length := by
          rw [List.length_append, List.length_take] at hshort
          rw [List.length_take]
          omega
        have hheader : (filled ++ chunk.take (Frame.headerSize - filled.length)).length
            = Frame.headerSize := by
          rw [List.length_append, hfront]
          omega
        rw [hfront]
      · -- A full header that announces too much is a result, and the rest of the chunk is left.
        refine .result _ _ ?_
        have hoversized := @Frame.next?_of_oversized magic
          (filled ++ chunk.take (Frame.headerSize - filled.length)) (Nat.le_of_eq hheader.symm) hlarge
        rw [List.drop_of_length_le (Nat.le_of_eq hheader)] at hoversized
        have happend := Frame.next?_append (chunk.drop (Frame.headerSize - filled.length)) hoversized
        rw [List.append_assoc, hsplit, List.nil_append] at happend
        exact happend
      · -- Any other full header begins a payload, which goes on with the rest of the chunk.
        have hpayload := @absorbPayload_spec magic (.header filled)
          (chunk.take (Frame.headerSize - filled.length))
          (filled ++ chunk.take (Frame.headerSize - filled.length)).toArray
          (Frame.lengthOf (filled ++ chunk.take (Frame.headerSize - filled.length))) rfl
          (Nat.le_of_eq hheader.symm) (Nat.le_of_not_lt hlarge) (congrArg (· + _) hheader)
          (chunk.drop (Frame.headerSize - filled.length))
        rwa [hsplit] at hpayload

/-- A result uses up a part of the chunk that brought it. -/
theorem Waits.length_lt (hw : reader.Waits)
    (h : Frame.next? magic (reader.held ++ chunk) = some (r, left)) : left.length < chunk.length := by
  obtain ⟨frame, hsplit, hframe⟩ := Frame.next?_split h
  refine Nat.lt_of_not_le fun hlong => ?_
  -- Otherwise the frame was complete in what the reader held.
  have hlength := congrArg List.length hsplit
  rw [List.length_append, List.length_append] at hlength
  have hheld : reader.held = frame ++ reader.held.drop frame.length := by
    have hfront : reader.held.take frame.length = frame := by
      have htake := congrArg (List.take frame.length) hsplit
      rwa [List.take_append_of_le_length (by omega), List.take_left] at htake
    rw [← List.take_append_drop frame.length reader.held, hfront]
    simp
  have hnext := hframe (reader.held.drop frame.length)
  rw [← hheld, hw.next?_held magic] at hnext
  cases hnext

end Reader

end BitcoinCrawl
