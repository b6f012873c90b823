import BitcoinCrawl.Wire.Frame
import Mathlib.Algebra.Ring.Nat

set_option autoImplicit false

/-! # Fields of built frames

`Frame.build` puts every field where the reading side looks for it, so a frame announces the length it has
(`lengthOf_build`) and gives back its magic, command, checksum and payload. -/

namespace BitcoinCrawl

theorem Bytes.toNatLE_ofNatLE (width n : Nat) : toNatLE (ofNatLE width n) = n % 256 ^ width := by
  induction width generalizing n with
  | zero => rw [Nat.pow_zero, Nat.mod_one]; rfl
  | succ width ih =>
      have hlow : (UInt8.ofNat n).toNat = n % 256 := UInt8.toNat_ofNat'
      rw [ofNatLE, toNatLE, ih, hlow, Nat.pow_succ', Nat.mod_mul]

theorem Bytes.toNatLE_ofNatLE_of_lt {width n : Nat} (h : n < 256 ^ width) :
    toNatLE (ofNatLE width n) = n := by
  rw [toNatLE_ofNatLE, Nat.mod_eq_of_lt h]

namespace Frame

theorem length_checksum (payload : Bytes) : (checksum payload).length = 4 := rfl

theorem length_commandField (command : Bytes) : (commandField command).length = 12 := by
  rw [commandField, List.length_take, List.length_append, List.length_replicate]
  omega

section Build

variable {magic : Bytes} (command payload : Bytes) (hmagic : magic.length = 4)
include hmagic

/-- The header a frame is built with. -/
theorem length_header :
    (magic ++ commandField command ++ Bytes.ofNatLE 4 payload.length ++ checksum payload).length
      = headerSize := by
  rw [List.length_append, List.length_append, List.length_append, hmagic, length_commandField,
    Bytes.length_ofNatLE, length_checksum]
  rfl

theorem length_build : (build magic command payload).length = headerSize + payload.length := by
  rw [build, List.length_append, length_header command payload hmagic]

theorem payloadOf_build : payloadOf (build magic command payload) = payload :=
  List.drop_left' (length_header command payload hmagic)

theorem magicOf_build : magicOf (build magic command payload) = magic := by
  rw [build, List.append_assoc, List.append_assoc, List.append_assoc]
  exact List.take_left' hmagic

theorem checksumOf_build : checksumOf (build magic command payload) = checksum payload := by
  have hfront : (magic ++ commandField command ++ Bytes.ofNatLE 4 payload.length).length = 20 := by
    rw [List.length_append, List.length_append, hmagic, length_commandField, Bytes.length_ofNatLE]
  rw [checksumOf, build, List.append_assoc, List.drop_left' hfront]
  exact List.take_left' (length_checksum payload)

/-- A frame announces the length it has, if the length fits into its field. -/
theorem lengthOf_build (hfits : payload.length < 256 ^ 4) :
    lengthOf (build magic command payload) = payload.length := by
  have hfront : (magic ++ commandField command).length = 16 := by
    rw [List.length_append, hmagic, length_commandField]
  rw [lengthOf, build, List.append_assoc, List.append_assoc, List.drop_left' hfront,
    List.take_left' (Bytes.length_ofNatLE 4 _), Bytes.toNatLE_ofNatLE_of_lt hfits]

/-- A command comes back if it fits into its field and has no zeros in it. -/
theorem commandOf_build (hfits : command.length ≤ 12) (hzero : ∀ b ∈ command, b ≠ 0) :
    commandOf (build magic command payload) = command := by
  have hfield : ((build magic command payload).drop 4).take 12 = commandField command := by
    rw [build, List.append_assoc, List.append_assoc, List.append_assoc, List.drop_left' hmagic]
    exact List.take_left' (length_commandField command)
  have hpadded : commandField command = command ++ List.replicate (12 - command.length) 0 := by
    rw [commandField, List.take_append, List.take_of_length_le hfits, List.take_replicate,
      Nat.min_eq_left (Nat.sub_le ..)]
  have hstop : command.reverse.dropWhile (· == 0) = command.reverse := by
    cases hlast : command.reverse with
    | nil => rfl
    | cons b rest =>
        have hmem : b ∈ command := List.mem_reverse.mp (hlast ▸ List.mem_cons_self)
        exact List.dropWhile_cons_of_neg (by simpa using hzero b hmem)
  rw [commandOf, hfield, hpadded, List.reverse_append, List.reverse_replicate,
    List.dropWhile_append_of_pos (by simp), hstop, List.reverse_reverse]

end Build

/-! ## Decoding -/

/-- The frame of a message that its payload's reader gives back is decoded to it. -/
theorem decode_encode {magic : Magic} {m : Message}
    (codec : content (encode magic m) = .ok (.known m)) : decode magic (encode magic m) = .ok m := by
  have hmagic : magicOf (encode magic m) = magic.bytes := magicOf_build _ _ magic.length_eq
  simp only [decode, codec]
  rw [if_neg (not_not_intro hmagic)]

/-- On any other network the same frame has the wrong magic. -/
theorem decode_encode_of_ne {magic magic' : Magic} {m : Message} (hne : magic' ≠ magic)
    (codec : content (encode magic' m) = .ok (.known m)) :
    decode magic (encode magic' m) = .error .wrongMagic := by
  have hmagic : magicOf (encode magic' m) = magic'.bytes := magicOf_build _ _ magic'.length_eq
  have hdiffers : magicOf (encode magic' m) ≠ magic.bytes := fun heq => by
    rw [hmagic] at heq
    obtain ⟨bytes, hbytes⟩ := magic
    obtain ⟨bytes', hbytes'⟩ := magic'
    exact hne (by simpa using heq)
  simp only [decode, codec]
  rw [if_pos hdiffers]

end Frame

end BitcoinCrawl
