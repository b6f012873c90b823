import BitcoinCrawl.Net.SocketAddress
import BitcoinCrawl.Proofs.Text.Numerals
import BitcoinCrawl.Proofs.Wire.Reading

set_option autoImplicit false

/-! # Socket addresses are read back

What is printed of a socket address is read as that address, whichever zeros were left out of it and whether it
ends in a dotted quad or names a scope (`parse?_chars`). Every reader takes the longest text it can, so each part
is read back from the front of any text that does not go on with it. -/

namespace BitcoinCrawl

open Numeral

/-! ## Numbers and dotted quads -/

/-- A hexadecimal numeral holds no point. -/
theorem hex_ne_point (n : Nat) : ∀ c ∈ hex n, c ≠ '.' := by
  intro c hc
  obtain ⟨ds, hds⟩ := exists_spells (show 1 < 16 by decide) n
  rw [hex, hds.printed] at hc
  obtain ⟨d, hd, rfl⟩ := List.mem_map.mp hc
  have hpoint : ∀ d < 16, Nat.digitChar d ≠ '.' := by decide
  exact hpoint d (hds.small d hd)

theorem readOctet_decimal (o : UInt8) {rest : List Char} (hrest : EndsDigits 10 rest) :
    readOctet (decimal o.toNat ++ rest) = some (o, rest) := by
  have hsmall := o.toNat_lt
  have hread : Numeral.read { base := 10, width := some 3, leadingZeros := false, max := 255 }
      (decimal o.toNat ++ rest) = some (o.toNat, rest) := by
    refine read_toDigits (by decide) (by decide) (Nat.le_of_lt_succ hsmall) ?_ hrest
    intro w hw
    obtain rfl : 3 = w := Option.some.inj hw
    exact ⟨by decide, hsmall.trans (by decide)⟩
  rw [readOctet, hread]
  show some (UInt8.ofNat o.toNat, rest) = some (o, rest)
  rw [UInt8.ofNat_toNat]

theorem endsDigits_point (rest : List Char) : EndsDigits 10 ('.' :: rest) := endsDigits_cons (by decide) rest

theorem Ipv4.chars_eq (ip : Ipv4) :
    ip.chars = decimal ip.a.toNat ++ '.' :: (decimal ip.b.toNat ++ '.' :: (decimal ip.c.toNat ++
      '.' :: decimal ip.d.toNat)) := by
  simp [Ipv4.chars, Ipv4.octets, List.intercalate]

theorem Ipv4.read_chars (ip : Ipv4) {rest : List Char} (hrest : EndsDigits 10 rest) :
    Ipv4.read (ip.chars ++ rest) = some (ip, rest) := by
  have hnext : ∀ (o : UInt8) {rest : List Char}, EndsDigits 10 rest →
      readNextOctet ('.' :: (decimal o.toNat ++ rest)) = some (o, rest) :=
    fun o _ h => readOctet_decimal o h
  rw [Ipv4.chars_eq]
  simp only [List.append_assoc, List.cons_append, Ipv4.read, readOctet_decimal _ (endsDigits_point _),
    hnext _ (endsDigits_point _), hnext _ hrest, Option.bind_eq_bind, Option.bind_some, pure]

theorem digits_of_read {form : Form} {text rest : List Char} {n : Nat} (h : Numeral.read form text = some (n, rest)) :
    rest = (digits form.base text).2 := by
  simp only [Numeral.read] at h
  split at h <;> split_ifs at h
  all_goals exact (Prod.mk.inj (Option.some.inj h)).2.symm

/-- Without a point behind its first digits a text starts with no dotted quad. -/
theorem Ipv4.read_of_no_point {text : List Char} (h : (digits 10 text).2.head? ≠ some '.') :
    Ipv4.read text = none := by
  rw [Ipv4.read]
  cases hfirst : readOctet text with
  | none => rfl
  | some first =>
      obtain ⟨a, rest⟩ := first
      have hrest : rest = (digits 10 text).2 := by
        rw [readOctet] at hfirst
        obtain ⟨⟨n, behind⟩, hread, hpair⟩ := Option.bind_eq_some_iff.mp hfirst
        rw [← (Prod.mk.inj (Option.some.inj hpair)).2, digits_of_read hread]
      have hpoint : expectChar '.' rest = none := by
        rw [hrest]
        cases hdigits : (digits 10 text).2 with
        | nil => rfl
        | cons c tail =>
            refine if_neg fun hc => h ?_
            rw [hdigits, hc]
            rfl
      show (readNextOctet rest).bind _ = none
      rw [readNextOctet, hpoint]
      rfl

/-- What is printed in hexadecimal starts no dotted quad unless a point stands behind it. -/
theorem Ipv4.read_hex (n : Nat) {rest : List Char} (hrest : EndsDigits 16 rest) (hpoint : rest.head? ≠ some '.') :
    Ipv4.read (hex n ++ rest) = none := by
  -- By induction on the characters in front: none of them is a point, and neither is the one behind them.
  have hrun : ∀ text : List Char, (∀ c ∈ text, c ≠ '.') →
      (digits 10 (text ++ rest)).2.head? ≠ some '.' := by
    intro text
    induction text with
    | nil =>
        intro _
        rw [List.nil_append, digits_of_ends (hrest.of_sixteen (by decide))]
        exact hpoint
    | cons c text ih =>
        intro hpoints
        obtain ⟨hc, htext⟩ := List.forall_mem_cons.mp hpoints
        rw [List.cons_append, digits]
        cases digit? 10 c with
        | some d => exact ih htext
        | none => exact fun h => hc (Option.some.inj h)
  exact Ipv4.read_of_no_point (hrun (hex n) (hex_ne_point n))

theorem Ipv4.read_of_ends {rest : List Char} (hrest : EndsDigits 16 rest) : Ipv4.read rest = none := by
  rw [Ipv4.read, readOctet, Numeral.read_of_ends (hrest.of_sixteen (by decide))]
  rfl

namespace Ipv6

/-! ## Groups -/

theorem readGroup_hex (g : UInt16) {rest : List Char} (hrest : EndsDigits 16 rest) :
    readGroup (hex g.toNat ++ rest) = some (g, rest) := by
  have hsmall := g.toNat_lt
  have hread : Numeral.read { base := 16, width := some 4, max := 0xffff } (hex g.toNat ++ rest) =
      some (g.toNat, rest) := by
    refine read_toDigits (by decide) (by decide) (Nat.le_of_lt_succ hsmall) ?_ hrest
    intro w hw
    obtain rfl : 4 = w := Option.some.inj hw
    exact ⟨by decide, hsmall⟩
  rw [readGroup, hread]
  show some (UInt16.ofNat g.toNat, rest) = some (g, rest)
  rw [UInt16.ofNat_toNat]

theorem readGroup_of_ends {rest : List Char} (hrest : EndsDigits 16 rest) : readGroup rest = none := by
  rw [readGroup, read_of_ends hrest]
  rfl

/-- A text that goes on neither with the last group before it nor with a further one. -/
structure EndsGroups (rest : List Char) : Prop where
  ends : EndsDigits 16 rest
  noPoint : rest.head? ≠ some '.'
  noGroup : ∀ behind, rest = ':' :: behind → EndsDigits 16 behind

theorem endsGroups_gap (rest : List Char) : EndsGroups (':' :: ':' :: rest) where
  ends := endsDigits_cons (by decide) _
  noPoint := by simp
  noGroup := by
    rintro behind ⟨⟩
    exact endsDigits_cons (by decide) rest

theorem endsGroups_cons {c : Char} (hdigit : digit? 16 c = none) (hpoint : c ≠ '.') (hcolon : c ≠ ':')
    (rest : List Char) : EndsGroups (c :: rest) where
  ends := endsDigits_cons hdigit rest
  noPoint := by simpa using hpoint
  noGroup := fun _ h => absurd (List.cons.inj h).1 hcolon

/-- The first group, or one more, of groups that are printed one behind the other. -/
theorem readGroups_hex {room : Nat} {isFirst : Bool} {text next : List Char} {g : UInt16}
    (htext : skipSeparator isFirst text = some (hex g.toNat ++ next)) (hends : EndsDigits 16 next)
    (hpoint : next.head? ≠ some '.') :
    readGroups (room + 1) isFirst text =
      ⟨g :: (readGroups room false next).groups, (readGroups room false next).endsInQuad,
        (readGroups room false next).rest⟩ := by
  have hquad : (if room = 0 then none else Ipv4.read (hex g.toNat ++ next)) = none := by
    rw [Ipv4.read_hex g.toNat hends hpoint]
    exact ite_self none
  rw [readGroups, htext]
  simp only [hquad, readGroup_hex g hends]

/-- The groups end where the text goes on with something else. -/
theorem readGroups_of_ends {rest : List Char} (h : EndsGroups rest) (room : Nat) (isFirst : Bool) :
    readGroups room isFirst rest = ⟨[], false, rest⟩ := by
  cases room with
  | zero => rfl
  | succ room =>
      have hnone : ∀ behind, skipSeparator isFirst rest = some behind → EndsDigits 16 behind := by
        intro behind hskip
        cases isFirst with
        | true => exact Option.some.inj hskip ▸ h.ends
        | false =>
            cases rest with
            | nil => cases hskip
            | cons c tail =>
                change (if c = ':' then some tail else none) = some behind at hskip
                split_ifs at hskip with hc
                exact h.noGroup behind (by rw [hc, Option.some.inj hskip])
      rw [readGroups]
      cases hskip : skipSeparator isFirst rest with
      | none => rfl
      | some behind =>
          have hquad : (if room = 0 then none else Ipv4.read behind) = none := by
            rw [Ipv4.read_of_ends (hnone behind hskip)]
            exact ite_self none
          simp only [hquad, readGroup_of_ends (hnone behind hskip)]

/-- Groups behind another group, each with a colon in front. -/
def groupsBehind (gs : List UInt16) : List Char := gs.flatMap fun g => ':' :: hex g.toNat

theorem groupChars_cons (g : UInt16) (gs : List UInt16) :
    groupChars (g :: gs) = hex g.toNat ++ groupsBehind gs := by
  induction gs generalizing g with
  | nil => simp [groupChars, groupsBehind, List.intercalate]
  | cons g' gs ih =>
      have hnext : groupChars (g :: g' :: gs) = hex g.toNat ++ ':' :: groupChars (g' :: gs) := by
        simp [groupChars, List.intercalate]
      rw [hnext, ih]
      simp [groupsBehind]

theorem endsGroupsBehind (gs : List UInt16) {rest : List Char} (hrest : EndsGroups rest) :
    EndsDigits 16 (groupsBehind gs ++ rest) ∧ (groupsBehind gs ++ rest).head? ≠ some '.' := by
  cases gs with
  | nil => exact ⟨hrest.ends, hrest.noPoint⟩
  | cons g gs => exact ⟨endsDigits_cons (by decide) _, by simp [groupsBehind]⟩

theorem readGroups_behind (gs : List UInt16) {room : Nat} (hroom : gs.length ≤ room) {rest : List Char}
    (hrest : EndsGroups rest) : readGroups room false (groupsBehind gs ++ rest) = ⟨gs, false, rest⟩ := by
  induction gs generalizing room with
  | nil => exact readGroups_of_ends hrest room false
  | cons g gs ih =>
      obtain ⟨room, rfl⟩ : ∃ n, room = n + 1 := Nat.exists_eq_add_one_of_ne_zero (by simp at hroom; omega)
      obtain ⟨hends, hpoint⟩ := endsGroupsBehind gs hrest
      have htext : skipSeparator false (groupsBehind (g :: gs) ++ rest) =
          some (hex g.toNat ++ (groupsBehind gs ++ rest)) := by
        simp [groupsBehind, skipSeparator, expectChar]
      rw [readGroups_hex htext hends hpoint, ih (Nat.le_of_succ_le_succ hroom)]

/-- Printed groups are read as they are. -/
theorem readGroups_groupChars (gs : List UInt16) {room : Nat} (hroom : gs.length ≤ room) {rest : List Char}
    (hrest : EndsGroups rest) : readGroups room true (groupChars gs ++ rest) = ⟨gs, false, rest⟩ := by
  cases gs with
  | nil => exact readGroups_of_ends hrest room true
  | cons g gs =>
      obtain ⟨room, rfl⟩ : ∃ n, room = n + 1 := Nat.exists_eq_add_one_of_ne_zero (by simp at hroom; omega)
      obtain ⟨hends, hpoint⟩ := endsGroupsBehind gs hrest
      have htext : skipSeparator true (groupChars (g :: gs) ++ rest) =
          some (hex g.toNat ++ (groupsBehind gs ++ rest)) := by
        rw [groupChars_cons, List.append_assoc]
        rfl
      rw [readGroups_hex htext hends hpoint, readGroups_behind gs (Nat.le_of_succ_le_succ hroom) hrest]

/-! ## Runs of zeros -/

theorem zerosAtFront_split (gs : List UInt16) :
    ∃ back, gs = List.replicate (zerosAtFront gs) 0 ++ back := by
  induction gs with
  | nil => exact ⟨[], rfl⟩
  | cons g gs ih =>
      obtain ⟨back, hback⟩ := ih
      by_cases hg : g = 0
      · refine ⟨back, ?_⟩
        rw [zerosAtFront, if_pos hg, List.replicate_succ, List.cons_append, ← hback, hg]
      · exact ⟨g :: gs, by rw [zerosAtFront, if_neg hg]; rfl⟩

/-- The run that is left out consists of zeros. -/
theorem longestZeroRun_split (gs : List UInt16) :
    ∃ front back, gs = front ++ List.replicate (longestZeroRun gs).2 0 ++ back ∧
      front.length = (longestZeroRun gs).1 := by
  induction gs with
  | nil => exact ⟨[], [], rfl, rfl⟩
  | cons g gs ih =>
      rw [longestZeroRun]
      by_cases hlater : zerosAtFront (g :: gs) < (longestZeroRun gs).2
      · obtain ⟨front, back, hgs, hfront⟩ := ih
        refine ⟨g :: front, back, ?_, ?_⟩
        · simp only [if_pos hlater, List.cons_append, ← hgs]
        · simp only [if_pos hlater, List.length_cons, hfront]
      · obtain ⟨back, hback⟩ := zerosAtFront_split (g :: gs)
        refine ⟨[], back, ?_, ?_⟩
        · simpa only [if_neg hlater, List.nil_append] using hback
        · simp only [if_neg hlater, List.length_nil]

/-! ## Addresses -/

theorem ofGroups?_groups (ip : Ipv6) : ofGroups? ip.groups = some ip := rfl

theorem toMapped_lastFour {ip : Ipv6} (h : ip.isMapped = true) : ip.lastFour.toMapped = ip := by
  obtain ⟨g0, g1, g2, g3, g4, g5, g6, g7⟩ := ip
  have hg6 := Decoder.groupOf_octetPair g6
  have hg7 := Decoder.groupOf_octetPair g7
  simp only [isMapped, Bool.and_eq_true, beq_iff_eq] at h
  obtain ⟨⟨⟨⟨⟨rfl, rfl⟩, rfl⟩, rfl⟩, rfl⟩, rfl⟩ := h
  simp only [lastFour, Ipv4.toMapped, hg6, hg7]

/-- All eight groups are there. -/
theorem read_full (ip : Ipv6) {rest : List Char} (hrest : EndsGroups rest) :
    read (groupChars ip.groups ++ rest) = some (ip, rest) := by
  rw [read, readGroups_groupChars ip.groups (Nat.le_refl 8) hrest]
  rfl

/-- Some zeros in the middle are left out. -/
theorem read_gap {ip : Ipv6} {front back : List UInt16} {length : Nat} (hlength : 0 < length)
    (hgroups : ip.groups = front ++ List.replicate length 0 ++ back) {rest : List Char} (hrest : EndsGroups rest) :
    read (groupChars front ++ ':' :: ':' :: (groupChars back ++ rest)) = some (ip, rest) := by
  have hsum : front.length + length + back.length = 8 := by
    have h := congrArg List.length hgroups
    rw [List.length_append, List.length_append, List.length_replicate] at h
    exact h.symm
  have hfront := readGroups_groupChars front (show front.length ≤ 8 by omega)
    (endsGroups_gap (groupChars back ++ rest))
  have hback := readGroups_groupChars back (show back.length ≤ 7 - front.length by omega) hrest
  have hmissing : 8 - front.length - back.length = length := by omega
  have hfull : front.length ≠ 8 := by omega
  simp only [read, hfront, if_neg hfull, expectChar, if_true, Option.bind_eq_bind, Option.bind_some, hback,
    hmissing, Bool.false_eq_true, if_false]
  rw [← hgroups, ofGroups?_groups]
  rfl

/-- An IPv4 address in its second spelling. -/
theorem read_mapped (ip : Ipv4) {rest : List Char} (hrest : EndsGroups rest) :
    read ("::ffff:".toList ++ ip.chars ++ rest) = some (ip.toMapped, rest) := by
  have hquad := ip.read_chars (hrest.ends.of_sixteen (show 10 ≤ 16 by decide))
  have hlast : readGroups 6 false (':' :: (ip.chars ++ rest)) =
      ⟨[groupOf ip.a ip.b, groupOf ip.c ip.d], true, rest⟩ := by
    simp [readGroups, skipSeparator, expectChar, hquad]
  have hback : readGroups 7 true (hex (0xffff : UInt16).toNat ++ ':' :: (ip.chars ++ rest)) =
      ⟨[0xffff, groupOf ip.a ip.b, groupOf ip.c ip.d], true, rest⟩ := by
    rw [readGroups_hex rfl (endsDigits_cons (by decide) _) (by simp), hlast]
  have hfront := readGroups_of_ends
    (endsGroups_gap (hex (0xffff : UInt16).toNat ++ ':' :: (ip.chars ++ rest))) 8 true
  have htext : "::ffff:".toList ++ ip.chars ++ rest =
      ':' :: ':' :: (hex (0xffff : UInt16).toNat ++ ':' :: (ip.chars ++ rest)) := by
    have hhex : hex (0xffff : UInt16).toNat = ['f', 'f', 'f', 'f'] := by decide
    rw [hhex]
    rfl
  rw [htext, read, hfront]
  simp only [List.length_nil, expectChar, if_true, Option.bind_eq_bind, Option.bind_some, hback]
  rfl

theorem read_chars (ip : Ipv6) {rest : List Char} (hrest : EndsGroups rest) :
    read (ip.chars ++ rest) = some (ip, rest) := by
  rw [chars]
  split_ifs with hmapped
  · rw [read_mapped ip.lastFour hrest, toMapped_lastFour hmapped]
  · obtain ⟨front, back, hgroups, hfront⟩ := longestZeroRun_split ip.groups
    generalize longestZeroRun ip.groups = run at hgroups hfront ⊢
    obtain ⟨start, length⟩ := run
    dsimp only at hgroups hfront ⊢
    subst hfront
    split_ifs with hgap
    · have htake : ip.groups.take front.length = front := by
        rw [hgroups, List.append_assoc, List.take_left]
      have hdrop : ip.groups.drop (front.length + length) = back := by
        rw [hgroups]
        exact List.drop_left' (by rw [List.length_append, List.length_replicate])
      rw [htake, hdrop]
      simp only [List.append_assoc, List.cons_append, List.nil_append]
      exact read_gap (Nat.lt_of_lt_of_le (by decide) hgap) hgroups hrest
    · exact read_full ip hrest

/-! ## Scopes -/

theorem readScope_decimal (scope : UInt32) {rest : List Char} (hrest : EndsDigits 10 rest) :
    readScope ('%' :: (decimal scope.toNat ++ rest)) = (scope, rest) := by
  have hsmall := scope.toNat_lt
  have hread : Numeral.read { base := 10, max := 0xffffffff } (decimal scope.toNat ++ rest) =
      some (scope.toNat, rest) := by
    refine read_toDigits (by decide) (by decide) (Nat.le_of_lt_succ hsmall) ?_ hrest
    intro w hw
    cases hw
  simp only [readScope, expectChar, if_true, Option.bind_eq_bind, Option.bind_some, hread]
  rw [UInt32.ofNat_toNat]

end Ipv6

namespace SocketAddress

/-! ## Whole texts -/

theorem readPort_decimal (port : UInt16) : readPort (':' :: decimal port.toNat) = some (port, []) := by
  have hsmall := port.toNat_lt
  have hread : Numeral.read { base := 10, max := 0xffff } (decimal port.toNat ++ []) = some (port.toNat, []) := by
    refine read_toDigits (by decide) (by decide) (Nat.le_of_lt_succ hsmall) ?_ (by simp [EndsDigits])
    intro w hw
    cases hw
  rw [List.append_nil] at hread
  simp only [readPort, expectChar, if_true, Option.bind_eq_bind, Option.bind_some, hread, pure]
  rw [UInt16.ofNat_toNat]

theorem readV4_chars (ip : Ipv4) (port : UInt16) : readV4 (v4 ip port).chars = some (v4 ip port, []) := by
  have hip := ip.read_chars (endsDigits_cons (by decide : digit? 10 ':' = none) (decimal port.toNat))
  simp only [readV4, chars, hip, Option.bind_eq_bind, Option.bind_some, readPort_decimal, pure]

/-- Behind the address stand its scope and the closing bracket, or the bracket alone. -/
theorem readScope_zone (scope : UInt32) (rest : List Char) :
    let zone := if scope = 0 then [] else '%' :: decimal scope.toNat
    Ipv6.EndsGroups (zone ++ ']' :: rest) ∧ Ipv6.readScope (zone ++ ']' :: rest) = (scope, ']' :: rest) := by
  dsimp only
  split_ifs with hnone
  · refine ⟨Ipv6.endsGroups_cons (by decide) (by decide) (by decide) rest, ?_⟩
    rw [hnone]
    rfl
  · refine ⟨Ipv6.endsGroups_cons (by decide) (by decide) (by decide) _, ?_⟩
    exact Ipv6.readScope_decimal scope (endsDigits_cons (by decide) rest)

theorem readV6_chars (ip : Ipv6) (port : UInt16) (scope : UInt32) :
    readV6 (v6 ip port scope).chars = some (v6 ip port scope, []) := by
  obtain ⟨hends, hscope⟩ := readScope_zone scope (':' :: decimal port.toNat)
  have hip := ip.read_chars hends
  have htext : (v6 ip port scope).chars = '[' :: (ip.chars ++ ((if scope = 0 then [] else
      '%' :: decimal scope.toNat) ++ ']' :: ':' :: decimal port.toNat)) := by
    simp [chars]
  simp only [htext, readV6, expectChar, if_true, Option.bind_eq_bind, Option.bind_some, hip, hscope,
    readPort_decimal, pure]

/-- **A socket address is read back from its text.** It does not matter which zeros were left out, whether the
    address spells an IPv4 one, or whether it names a scope. -/
theorem parse?_chars (address : SocketAddress) : parse? address.chars = some address := by
  cases address with
  | v4 ip port =>
      rw [parse?, readV4_chars]
      rfl
  | v6 ip port scope =>
      have hbracket : readV4 (v6 ip port scope).chars = none := by
        rw [readV4, chars, List.cons_append, List.cons_append, List.cons_append,
          Ipv4.read_of_ends (endsDigits_cons (by decide) _)]
        rfl
      rw [parse?, hbracket, Option.none_or, readV6_chars]
      rfl

end SocketAddress

end BitcoinCrawl
