import BitcoinCrawl.NodeFile.Parser
import BitcoinCrawl.NodeFile.Printer
import BitcoinCrawl.Proofs.Text.Numerals
import Mathlib.Tactic.SplitIfs

set_option autoImplicit false

/-! # Reading back single values

A printed string is read back whatever its characters are, and so is a printed number that fits into a word, as
long as a comma or a line end stands behind it. -/

namespace BitcoinCrawl.NodeFile

namespace Scan

variable {α β : Type}

/-- What a reader takes is there for the next one. -/
theorem bind_ok {p : Scan α} {text rest : List Char} {a : α} (h : p text = .ok (a, rest)) (f : α → Scan β) :
    (p >>= f) text = f a rest := by
  show (p text >>= fun read => f read.1 read.2) = _
  rw [h]
  rfl

theorem map_ok {p : Scan α} {text rest : List Char} {a : α} (h : p text = .ok (a, rest)) (f : α → β) :
    (do return f (← p)) text = .ok (f a, rest) := bind_ok h _

end Scan

/-! ## Strings -/

theorem stringBody_step {mode mode' : StringMode} {c : Char} {out : Option Char} {text : List Char}
    (hopen : mode = .plain → c ≠ '"') (h : mode.take true c (c :: text) = .ok (mode', out)) (acc : Array Char) :
    stringBody true mode acc (c :: text) = stringBody true mode' (out.elim acc acc.push) text := by
  rw [stringBody, h]
  · cases out <;> rfl
  · exact hopen

theorem stringBody_digit {digits value d : Nat} {leading : Option Nat} (hd : d < 16) (hmore : digits ≠ 3)
    (acc : Array Char) (text : List Char) :
    stringBody true (.unit digits value leading) acc (Nat.digitChar d :: text) =
      stringBody true (.unit (digits + 1) (value * 16 + d) leading) acc text := by
  have htake : StringMode.take true (.unit digits value leading) (Nat.digitChar d) (Nat.digitChar d :: text) =
      .ok (.unit (digits + 1) (value * 16 + d) leading, none) := by
    rw [StringMode.take, Numeral.digit?_digitChar hd (Nat.le_refl 16)]
    exact if_neg hmore
  exact stringBody_step (by nofun) htake acc

/-- The last digit of a code unit that is no surrogate completes a character. -/
theorem stringBody_lastDigit {value d : Nat} (hd : d < 16) (hvalue : value * 16 + d < 0xd800)
    (acc : Array Char) (text : List Char) :
    stringBody true (.unit 3 value none) acc (Nat.digitChar d :: text) =
      stringBody true .plain (acc.push (Char.ofNat (value * 16 + d))) text := by
  have htrailing : ¬ 0xdc00 ≤ value * 16 + d := by omega
  have hleading : ¬ 0xd800 ≤ value * 16 + d := by omega
  have htake : StringMode.take true (.unit 3 value none) (Nat.digitChar d) (Nat.digitChar d :: text) =
      .ok (.plain, some (Char.ofNat (value * 16 + d))) := by
    simp [StringMode.take, Numeral.digit?_digitChar hd, StringMode.onUnit, htrailing, hleading]
  exact stringBody_step (by nofun) htake acc

/-- However a character is written, it is the character that is read. -/
theorem stringBody_escaped (c : Char) (acc : Array Char) (text : List Char) :
    stringBody true .plain acc (escaped c ++ text) = stringBody true .plain (acc.push c) text := by
  unfold escaped
  split_ifs with hquote hslash hb ht hn hf hr hcontrol
  · subst hquote; rfl
  · subst hslash; rfl
  · subst hb; rfl
  · subst ht; rfl
  · subst hn; rfl
  · subst hf; rfl
  · subst hr; rfl
  · have hhigh : c.toNat / 16 < 16 := by omega
    have hlow : c.toNat % 16 < 16 := Nat.mod_lt _ (by decide)
    have hback : c.toNat / 16 * 16 + c.toNat % 16 = c.toNat := Nat.div_add_mod' c.toNat 16
    have hvalue : c.toNat / 16 * 16 + c.toNat % 16 < 0xd800 := by omega
    calc stringBody true .plain acc
          ('\\' :: 'u' :: '0' :: '0' :: Nat.digitChar (c.toNat / 16) :: Nat.digitChar (c.toNat % 16) :: text)
        = stringBody true (.unit 2 0 none) acc
            (Nat.digitChar (c.toNat / 16) :: Nat.digitChar (c.toNat % 16) :: text) := rfl
      _ = stringBody true (.unit 3 (c.toNat / 16) none) acc (Nat.digitChar (c.toNat % 16) :: text) := by
          rw [stringBody_digit hhigh (by decide), Nat.zero_mul, Nat.zero_add]
      _ = stringBody true .plain (acc.push (Char.ofNat (c.toNat / 16 * 16 + c.toNat % 16))) text :=
          stringBody_lastDigit hlow hvalue acc text
      _ = stringBody true .plain (acc.push c) text := by rw [hback, Char.ofNat_toNat]
  · have htake : StringMode.take true .plain c (c :: text) = .ok (.plain, some c) := by
      simp [StringMode.take, hslash, hcontrol]
    exact stringBody_step (fun _ => hquote) htake acc

theorem stringBody_quoted (cs : List Char) (acc : Array Char) (rest : List Char) :
    stringBody true .plain acc (cs.flatMap escaped ++ '"' :: rest) =
      .ok (String.ofList (acc.toList ++ cs), rest) := by
  induction cs generalizing acc with
  | nil => rw [List.append_nil]; rfl
  | cons c cs ih =>
      rw [List.flatMap_cons, List.append_assoc, stringBody_escaped, ih, Array.toList_push, List.append_assoc]
      rfl

namespace Scan

theorem string_quoted (s : String) (rest : List Char) :
    string (s.toList.flatMap escaped ++ '"' :: rest) = .ok (s, rest) := by
  rw [string, stringBody_quoted, List.nil_append, String.ofList_toList]

theorem quoted_append (s : String) (rest : List Char) :
    quoted s ++ rest = '"' :: (s.toList.flatMap escaped ++ '"' :: rest) := by
  simp [quoted]

theorem text_quoted (s : String) (rest : List Char) : text (quoted s ++ rest) = .ok (s, rest) := by
  rw [quoted_append]
  exact string_quoted s rest

end Scan

/-! ## Numbers -/

/-- What stands behind a value: the comma before the next one, or the line end before a closing bracket. -/
def EndsValue (rest : List Char) : Prop := ∃ tail, rest = ',' :: tail ∨ rest = '\n' :: tail

theorem EndsValue.endsDigits {rest : List Char} (h : EndsValue rest) : Numeral.EndsDigits 10 rest := by
  intro c hc
  obtain ⟨tail, rfl | rfl⟩ := h
  · cases hc; rfl
  · cases hc; rfl

/-- A number starts with a digit. -/
theorem decimal_cons (n : Nat) : ∃ c tail, Numeral.decimal n = c :: tail ∧ c.isDigit = true := by
  cases hn : Numeral.decimal n with
  | nil => exact absurd hn Nat.toDigits_ne_nil
  | cons c tail =>
      have hmem : c ∈ Numeral.decimal n := hn ▸ List.mem_cons_self
      exact ⟨c, tail, rfl, Nat.isDigit_of_mem_toDigits (by decide) (by decide) hmem⟩

namespace Number

theorem le_foldl (ds : List Nat) (n : Nat) : n ≤ ds.foldl (fun n d => n * 10 + d) n := by
  induction ds generalizing n with
  | nil => exact Nat.le_refl n
  | cons d ds ih =>
      have hstep : n ≤ n * 10 + d := by omega
      exact Nat.le_trans hstep (ih (n * 10 + d))

/-- No digit is dropped from a number that fits into a word. -/
theorem extend_of_fits (ds : List Nat) (significand added : Nat)
    (hfits : ds.foldl (fun n d => n * 10 + d) significand ≤ maxWord) :
    extend significand added ds = (ds.foldl (fun n d => n * 10 + d) significand, added + ds.length, []) := by
  induction ds generalizing significand added with
  | nil => rfl
  | cons d ds ih =>
      have hfront := Nat.le_trans (le_foldl ds (significand * 10 + d)) hfits
      rw [extend, if_neg (Nat.not_lt.mpr hfront), ih _ _ hfits, List.foldl_cons, List.length_cons,
        Nat.add_right_comm, Nat.add_assoc]

theorem unsigned_decimal {n : Nat} (hn : n ≤ maxWord) {rest : List Char} (hrest : EndsValue rest) :
    unsigned false (Numeral.decimal n ++ rest) = .ok (natural n, rest) := by
  obtain ⟨ds, hds⟩ := Numeral.exists_spells (show 1 < 10 by decide) n
  have hread : digits (Numeral.decimal n ++ rest) = (ds, rest) := hds.digits (by decide) hrest.endsDigits
  have hextend : extend 0 0 ds = (n, ds.length, []) := by
    have hvalue : ds.foldl (fun n d => n * 10 + d) 0 = n := hds.value_eq
    rw [extend_of_fits ds 0 0 (by rwa [hvalue]), hvalue, Nat.zero_add]
  have hwhole : afterWhole false n 0 rest = .ok (natural n, rest) := by
    obtain ⟨tail, rfl | rfl⟩ := hrest
    · rfl
    · rfl
  unfold unsigned
  rw [hread]
  split
  next hempty => exact absurd (Prod.mk.inj hempty).1 hds.nonempty
  next hempty => exact absurd (Prod.mk.inj hempty).1 hds.nonempty
  next hpadded =>
    obtain ⟨rfl, -⟩ := Prod.mk.inj hpadded
    exact absurd (hds.unpadded rfl) (by simp)
  next hdigits =>
    obtain ⟨rfl, rfl⟩ := Prod.mk.inj hdigits
    simp only [hextend, List.length_nil, hwhole]

end Number

namespace Scan

theorem peek_of_isDigit {c : Char} (hc : c.isDigit = true) (text : List Char) :
    peek (c :: text) = .ok (c, c :: text) := by
  have hblank : (c == ' ' || c == '\n' || c == '\t' || c == '\r') = false := by
    simp only [Bool.or_eq_false_iff, beq_eq_false_iff_ne]
    refine ⟨⟨⟨?_, ?_⟩, ?_⟩, ?_⟩ <;> (rintro rfl; exact absurd hc (by decide))
  have hstays : (c :: text).dropWhile (fun c => c == ' ' || c == '\n' || c == '\t' || c == '\r') = c :: text :=
    List.dropWhile_cons_of_neg (by simp [hblank])
  have hskip : blank (c :: text) = .ok ((), c :: text) := congrArg (fun rest => Except.ok ((), rest)) hstays
  rw [peek, bind_ok hskip]
  rfl

theorem number_decimal {n : Nat} (hn : n ≤ maxWord) {rest : List Char} (hrest : EndsValue rest) :
    number (Numeral.decimal n ++ rest) = .ok (.natural n, rest) := by
  obtain ⟨c, tail, hdecimal, hc⟩ := decimal_cons n
  unfold number
  split
  next hsign =>
    rw [hdecimal, List.cons_append] at hsign
    rw [(List.cons.inj hsign).1] at hc
    exact absurd hc (by decide)
  next => exact Number.unsigned_decimal hn hrest

theorem integer_decimal {n max : Nat} (hn : n ≤ max) (hmax : max ≤ maxWord) {rest : List Char}
    (hrest : EndsValue rest) : integer max (Numeral.decimal n ++ rest) = .ok (n, rest) := by
  obtain ⟨c, tail, hdecimal, hc⟩ := decimal_cons n
  have hpeek : peek (Numeral.decimal n ++ rest) = .ok (c, Numeral.decimal n ++ rest) := by
    rw [hdecimal]
    exact peek_of_isDigit hc _
  rw [integer, bind_ok hpeek, if_pos (by simp [hc]), bind_ok (number_decimal (Nat.le_trans hn hmax) hrest)]
  exact congrFun (if_pos hn) rest

end Scan

/-! ## Values of fields -/

/-- A value is read from its text: a blank in front is passed over, the text is taken as a whole if a value ends
    behind it, and it does not start as `null` does. -/
structure Reads {α : Type} (value : Scan α) (text : List Char) (a : α) : Prop where
  spaced : ∀ rest, value (' ' :: rest) = value rest
  takes : ∀ rest, EndsValue rest → value (text ++ rest) = .ok (a, rest)
  opens : ∀ rest, ∃ c, c ≠ 'n' ∧ Scan.peek (text ++ rest) = .ok (c, text ++ rest)

namespace Reads

variable {α β : Type} {value : Scan α} {text : List Char} {a : α}

theorem map (f : α → β) (h : Reads value text a) : Reads (do return f (← value)) text (f a) where
  spaced rest := by
    show (value (' ' :: rest) >>= fun read => _) = (value rest >>= fun read => _)
    rw [h.spaced]
  takes rest hrest := Scan.map_ok (h.takes rest hrest) f
  opens := h.opens

theorem optional (h : Reads value text a) : Reads (Scan.optional value) text (some a) where
  spaced _ := rfl
  takes rest hrest := by
    obtain ⟨c, hc, hpeek⟩ := h.opens rest
    rw [Scan.optional, Scan.bind_ok hpeek]
    split
    · exact absurd rfl hc
    · exact Scan.map_ok (h.takes rest hrest) some
  opens := h.opens

theorem once (h : Reads value text a) {rest : List Char} (hrest : EndsValue rest) :
    Scan.once none value (':' :: ' ' :: (text ++ rest)) = .ok (some a, rest) := by
  show (do return some (← value)) (' ' :: (text ++ rest)) = _
  refine Scan.map_ok ?_ some
  rw [h.spaced]
  exact h.takes rest hrest

end Reads

theorem reads_text (s : String) : Reads Scan.text (quoted s) s where
  spaced _ := rfl
  takes rest _ := Scan.text_quoted s rest
  opens rest := ⟨'"', by decide, by rw [Scan.quoted_append]; rfl⟩

theorem reads_integer {n max : Nat} (hn : n ≤ max) (hmax : max ≤ maxWord) :
    Reads (Scan.integer max) (Numeral.decimal n) n where
  spaced _ := rfl
  takes _ hrest := Scan.integer_decimal hn hmax hrest
  opens rest := by
    obtain ⟨c, tail, hdecimal, hc⟩ := decimal_cons n
    refine ⟨c, ?_, ?_⟩
    · rintro rfl
      exact absurd hc (by decide)
    · rw [hdecimal]
      exact Scan.peek_of_isDigit hc _

theorem reads_word64 (w : UInt64) : Reads Scan.word64 (Numeral.decimal w.toNat) w := by
  have hread := (reads_integer (Nat.le_pred_of_lt w.toNat_lt) (Nat.le_refl maxWord)).map UInt64.ofNat
  rwa [UInt64.ofNat_toNat] at hread

theorem reads_word32 (w : UInt32) : Reads Scan.word32 (Numeral.decimal w.toNat) w := by
  have hmax : 2 ^ 32 - 1 ≤ maxWord := by decide
  have hread := (reads_integer (Nat.le_pred_of_lt w.toNat_lt) hmax).map UInt32.ofNat
  rwa [UInt32.ofNat_toNat] at hread

end BitcoinCrawl.NodeFile
