import BitcoinCrawl.Proofs.Wire.Frames
import Mathlib.Tactic.SplitIfs

set_option autoImplicit false

/-! # Reading back what was written

A decoder `Reads` a value from some bytes if it takes exactly these bytes off the front of any input. Readings
compose as decoders do, so the reader of a layout is checked one field after the other. -/

namespace BitcoinCrawl

namespace Decoder

variable {α β : Type}

/-- The decoder takes these bytes, for this value, and leaves what stands behind them. -/
def Reads (d : Decoder α) (bytes : Bytes) (a : α) : Prop := ∀ rest, d (bytes ++ rest) = .ok (a, rest)

namespace Reads

theorem pure (a : α) : Reads (Pure.pure a) [] a := fun _ => rfl

theorem bind {d : Decoder α} {f : α → Decoder β} {bs bs' : Bytes} {a : α} {b : β} (first : Reads d bs a)
    (second : Reads (f a) bs' b) : Reads (d >>= f) (bs ++ bs') b := by
  intro rest
  rw [List.append_assoc]
  show (d (bs ++ (bs' ++ rest)) >>= fun read => f read.1 read.2) = _
  rw [first]
  exact second rest

/-- What only rearranges a value takes no bytes of its own. -/
theorem map {d : Decoder α} {bs : Bytes} {a : α} (f : α → β) (h : Reads d bs a) : Reads (f <$> d) bs (f a) := by
  intro rest
  show (d (bs ++ rest) >>= fun read => .ok (f read.1, read.2)) = _
  rw [h]
  rfl

theorem bind_nil {d : Decoder α} {f : α → Decoder β} {bs : Bytes} {a : α} {b : β} (first : Reads d bs a)
    (second : Reads (f a) [] b) : Reads (d >>= f) bs b := by
  have hread := first.bind second
  rwa [List.append_nil] at hread

theorem bind_pure {d : Decoder α} {bs : Bytes} {a : α} {f : α → β} (h : Reads d bs a) :
    Reads (do return f (← d)) bs (f a) :=
  h.bind_nil (pure (f a))

end Reads

/-! ## Single values -/

theorem reads_byte (b : UInt8) : Reads byte [b] b := fun _ => rfl

theorem reads_block {n : Nat} (octets : Octets n) : Reads (block n) octets.bytes octets := by
  intro rest
  obtain ⟨bytes, rfl⟩ := octets
  have hfront : (bytes ++ rest).take bytes.length = bytes := List.take_left
  have hback : (bytes ++ rest).drop bytes.length = rest := List.drop_left
  simp only [block, hfront, hback]
  rfl

theorem reads_number {n v : Nat} (h : v < 256 ^ n) : Reads (number n) (Bytes.ofNatLE n v) v := by
  have hread := (reads_block ⟨Bytes.ofNatLE n v, Bytes.length_ofNatLE n v⟩).bind_pure
    (f := fun octets => octets.bytes.toNatLE)
  rwa [Bytes.toNatLE_ofNatLE_of_lt h] at hread

theorem reads_word32 (w : UInt32) : Reads word32 (Bytes.ofNatLE 4 w.toNat) w := by
  have hread := (reads_number (n := 4) w.toNat_lt).bind_pure (f := UInt32.ofNat)
  rwa [UInt32.ofNat_toNat] at hread

theorem reads_word64 (w : UInt64) : Reads word64 (Bytes.ofNatLE 8 w.toNat) w := by
  have hread := (reads_number (n := 8) w.toNat_lt).bind_pure (f := UInt64.ofNat)
  rwa [UInt64.ofNat_toNat] at hread

/-- Sixteen bits as two octets and back. -/
theorem groupOf_octetPair (w : UInt16) : groupOf (w >>> 8).toUInt8 w.toUInt8 = w := by
  have hw := w.toNat_lt
  have hhigh : w.toNat >>> 8 % 2 ^ 8 = w.toNat / 2 ^ 8 := by
    rw [Nat.shiftRight_eq_div_pow]
    omega
  have hshift : (w.toNat / 2 ^ 8) <<< 8 % 2 ^ 16 = (w.toNat / 2 ^ 8) <<< 8 := by
    rw [Nat.shiftLeft_eq]
    omega
  refine UInt16.toNat_inj.mp ?_
  simp only [groupOf, UInt16.toNat_or, UInt16.toNat_shiftLeft, UInt8.toNat_toUInt16, UInt16.toNat_toUInt8,
    UInt16.toNat_shiftRight]
  show (w.toNat >>> 8 % 2 ^ 8) <<< 8 % 2 ^ 16 ||| w.toNat % 2 ^ 8 = w.toNat
  rw [hhigh, hshift, ← Nat.shiftLeft_add_eq_or_of_lt (Nat.mod_lt _ (by decide)), Nat.shiftLeft_eq]
  omega

theorem reads_port (p : UInt16) : Reads port (Bytes.ofPort p) p := by
  have hpair : ((p >>> 8).toUInt8.toUInt16 <<< 8) ||| p.toUInt8.toUInt16 = p := groupOf_octetPair p
  have hlow := (reads_byte p.toUInt8).bind_pure
    (f := fun low => ((p >>> 8).toUInt8.toUInt16 <<< 8) ||| low.toUInt16)
  rw [hpair] at hlow
  exact (reads_byte (p >>> 8).toUInt8).bind hlow

/-! ## Sequences -/

theorem many_go {item : Decoder α} {encode : α → Bytes} (as : List α)
    (h : ∀ a ∈ as, Reads item (encode a) a) (before : Array α) (rest : Bytes) :
    many.go item as.length before (as.flatMap encode ++ rest) = .ok (before.toList ++ as, rest) := by
  induction as generalizing before with
  | nil => simp [many.go]
  | cons a as ih =>
      rw [List.flatMap_cons, List.append_assoc, List.length_cons, many.go, h a List.mem_cons_self]
      simp only [ih (fun b hb => h b (List.mem_cons_of_mem _ hb)), Array.toList_push, List.append_assoc,
        List.singleton_append]

theorem reads_many {item : Decoder α} {encode : α → Bytes} (as : List α)
    (h : ∀ a ∈ as, Reads item (encode a) a) : Reads (many item as.length) (as.flatMap encode) as :=
  fun rest => many_go as h #[] rest

theorem reads_wide {width least : Nat} {n : UInt64} (hfits : n.toNat < 256 ^ width)
    (hleast : least ≤ n.toNat) : Reads (compactSize.wide width least) (Bytes.ofNatLE width n.toNat) n := by
  have hminimal : Reads (do
      if n.toNat < least then throw .nonMinimal
      return UInt64.ofNat n.toNat) [] n := by
    rw [if_neg (Nat.not_lt_of_le hleast), UInt64.ofNat_toNat]
    exact .pure n
  exact (reads_number hfits).bind_nil hminimal

/-- A byte below the markers is a number by itself. -/
theorem reads_compactSize_byte {b : UInt8} (h : b < 0xfd) : Reads compactSize [b] b.toUInt64 := by
  refine (reads_byte b).bind_nil ?_
  split
  iterate 3 exact absurd h (by decide)
  exact .pure _

/-- The shortest form of a number is read as the number. -/
theorem reads_compactSize (n : UInt64) : Reads compactSize (Bytes.compactSize n) n := by
  unfold Bytes.compactSize
  split_ifs with hbyte hword hdouble
  · have hsmall := UInt64.lt_iff_toNat_lt.mp hbyte
    have hn : n.toUInt8.toNat = n.toNat := by
      rw [UInt64.toNat_toUInt8]
      exact Nat.mod_eq_of_lt (Nat.lt_trans hsmall (by decide))
    have hback : n.toUInt8.toUInt64 = n := by
      refine UInt64.toNat_inj.mp ?_
      rw [UInt8.toNat_toUInt64, hn]
    have hread := reads_compactSize_byte (b := n.toUInt8) (UInt8.lt_iff_toNat_lt.mpr (hn ▸ hsmall))
    rwa [hback] at hread
  · exact (reads_byte 0xfd).bind (reads_wide (UInt64.lt_iff_toNat_lt.mp hword)
      (UInt64.le_iff_toNat_le.mp (UInt64.not_lt.mp hbyte)))
  · exact (reads_byte 0xfe).bind (reads_wide (UInt64.lt_iff_toNat_lt.mp hdouble)
      (UInt64.le_iff_toNat_le.mp (UInt64.not_lt.mp hword)))
  · exact (reads_byte 0xff).bind (reads_wide n.toNat_lt
      (UInt64.le_iff_toNat_le.mp (UInt64.not_lt.mp hdouble)))

theorem reads_list {item : Decoder α} {encode : α → Bytes} (as : List α)
    (h : ∀ a ∈ as, Reads item (encode a) a) (hfew : as.length < UInt64.size) :
    Reads (list item) (Bytes.counted encode as) as := by
  refine (reads_compactSize _).bind ?_
  rw [UInt64.toNat_ofNat_of_lt' hfew]
  exact reads_many as h

theorem reads_bytes (bs : Bytes) (hfew : bs.length < UInt64.size) : Reads bytes (Bytes.sized bs) bs := by
  refine (reads_compactSize _).bind ?_
  rw [UInt64.toNat_ofNat_of_lt' hfew]
  exact (reads_block ⟨bs, rfl⟩).bind_pure

theorem toText?_ofText (text : String) : Bytes.toText? (Bytes.ofText text) = some text :=
  dif_pos text.isValidUTF8

theorem reads_text (s : String) (hfew : (Bytes.ofText s).length < UInt64.size) :
    Reads text (Bytes.sized (Bytes.ofText s)) s := by
  refine (reads_bytes _ hfew).bind_nil ?_
  rw [toText?_ofText]
  exact .pure s

end Decoder

end BitcoinCrawl
