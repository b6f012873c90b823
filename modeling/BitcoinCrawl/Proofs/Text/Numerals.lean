import BitcoinCrawl.Text.Numeral
import Mathlib.Data.Nat.Digits.Defs

set_option autoImplicit false

/-! # Printed numerals

A printed number is one run of digits that stands for the number, without a zero in front. Digits are read as far
as they go, so what is read from the front of a text is the number as long as no digit stands behind it. -/

namespace BitcoinCrawl.Numeral

/-! ## Single digits -/

theorem digit?_sixteen_digitChar : ∀ d < 16, digit? 16 (Nat.digitChar d) = some d := by decide

theorem digit?_of_le {base : Nat} (hbase : base ≤ 16) (c : Char) :
    digit? base c = (digit? 16 c).filter (· < base) := by
  have hsmaller : ∀ v : Nat, (v < 16 ∧ v < base) ↔ v < base := by omega
  simp only [digit?, Option.filter_filter, ← Bool.decide_and, hsmaller]

theorem digit?_digitChar {base d : Nat} (hd : d < base) (hbase : base ≤ 16) :
    digit? base (Nat.digitChar d) = some d := by
  rw [digit?_of_le hbase, digit?_sixteen_digitChar d (Nat.lt_of_lt_of_le hd hbase)]
  exact Option.filter_some_pos (decide_eq_true hd)

/-! ## Runs of digits -/

/-- A text does not go on with a digit. -/
def EndsDigits (base : Nat) (rest : List Char) : Prop := ∀ c ∈ rest.head?, digit? base c = none

theorem digits_of_ends {base : Nat} {rest : List Char} (hrest : EndsDigits base rest) :
    digits base rest = ([], rest) := by
  cases rest with
  | nil => rfl
  | cons c rest => rw [digits, hrest c rfl]

/-- A run of digits is taken as a whole. -/
theorem digits_run {base : Nat} (hbase : base ≤ 16) (ds : List Nat) (hds : ∀ d ∈ ds, d < base)
    {rest : List Char} (hrest : EndsDigits base rest) :
    digits base (ds.map Nat.digitChar ++ rest) = (ds, rest) := by
  induction ds with
  | nil => exact digits_of_ends hrest
  | cons d ds ih =>
      have htail := ih fun e he => hds e (List.mem_cons_of_mem _ he)
      rw [List.map_cons, List.cons_append, digits, digit?_digitChar (hds d List.mem_cons_self) hbase, htail]

/-! ## Printed numbers -/

/-- The digits with which a number is printed. -/
structure Spells (base n : Nat) (ds : List Nat) : Prop where
  printed : Nat.toDigits base n = ds.map Nat.digitChar
  small : ∀ d ∈ ds, d < base
  value_eq : value base ds = n
  nonempty : ds ≠ []
  /-- Zero stands in front only by itself. -/
  unpadded : ds.head? = some 0 → ds = [0]

theorem value_concat (base : Nat) (ds : List Nat) (d : Nat) :
    value base (ds ++ [d]) = value base ds * base + d := by
  rw [value, List.foldl_append]
  rfl

/-- Every number is printed with some digits. -/
theorem exists_spells {base : Nat} (hbase : 1 < base) (n : Nat) : ∃ ds, Spells base n ds := by
  induction n using Nat.strongRecOn with
  | ind n ih =>
      by_cases hsmall : n < base
      · refine ⟨[n], by rw [Nat.toDigits_of_lt_base hsmall]; rfl, by simpa using hsmall, ?_, by simp, by simp⟩
        simp [value]
      · have hge := Nat.le_of_not_lt hsmall
        have hpos : 0 < n := by omega
        obtain ⟨ds, hds⟩ := ih (n / base) (Nat.div_lt_self hpos hbase)
        refine ⟨ds ++ [n % base], ?_, ?_, ?_, by simp, ?_⟩
        · rw [Nat.toDigits_of_base_le hbase hge, hds.printed, List.map_append]
          rfl
        · intro d hd
          rcases List.mem_append.mp hd with hd | hd
          · exact hds.small d hd
          · rw [List.mem_singleton.mp hd]
            exact Nat.mod_lt n (by omega)
        · rw [value_concat, hds.value_eq, Nat.mul_comm]
          exact Nat.div_add_mod n base
        · -- The digits in front stand for `n / base`, which is not zero.
          intro hhead
          rw [List.head?_append, Option.or_of_isSome (List.isSome_head?.mpr hds.nonempty)] at hhead
          have hzero : n / base = 0 := by rw [← hds.value_eq, hds.unpadded hhead]; simp [value]
          exact absurd hzero (Nat.ne_of_gt (Nat.div_pos hge (by omega)))

/-- A printed number is read back digit by digit. -/
theorem Spells.digits {base n : Nat} {ds : List Nat} (h : Spells base n ds) (hbase : base ≤ 16)
    {rest : List Char} (hrest : EndsDigits base rest) :
    digits base (Nat.toDigits base n ++ rest) = (ds, rest) := by
  rw [h.printed]
  exact digits_run hbase ds h.small hrest

theorem EndsDigits.of_sixteen {base : Nat} {rest : List Char} (h : EndsDigits 16 rest) (hbase : base ≤ 16) :
    EndsDigits base rest := by
  intro c hc
  rw [digit?_of_le hbase, h c hc]
  rfl

theorem endsDigits_cons {base : Nat} {c : Char} (hc : digit? base c = none) (rest : List Char) :
    EndsDigits base (c :: rest) := by
  intro c' hc'
  rw [← Option.some.inj hc', hc]

/-- Where no digit stands there is no numeral. -/
theorem read_of_ends {form : Form} {rest : List Char} (hrest : EndsDigits form.base rest) :
    read form rest = none := by
  simp only [read, digits_of_ends hrest, List.isEmpty_nil, Bool.true_or, if_true]

/-- A printed number is read as this number wherever so large a number may stand. -/
theorem read_toDigits {form : Form} {n : Nat} (hbase : 1 < form.base) (hlimit : form.base ≤ 16)
    (hmax : n ≤ form.max) (hwidth : ∀ w ∈ form.width, 0 < w ∧ n < form.base ^ w) {rest : List Char}
    (hrest : EndsDigits form.base rest) : read form (Nat.toDigits form.base n ++ rest) = some (n, rest) := by
  obtain ⟨ds, hds⟩ := exists_spells hbase n
  have hlength : (Nat.toDigits form.base n).length = ds.length := by rw [hds.printed, List.length_map]
  have hfits : ∀ w ∈ form.width, ¬ w < ds.length := by
    intro w hw
    obtain ⟨hpos, hsmall⟩ := hwidth w hw
    have hle := Nat.toDigits_length form.base n w hpos hsmall
    omega
  have hunpadded : (!form.leadingZeros && ds.head? == some 0 && decide (1 < ds.length)) = false := by
    by_cases hzero : ds.head? = some 0
    · simp [hds.unpadded hzero]
    · simp [hzero]
  have hnonempty : ds.isEmpty = false := by simp [hds.nonempty]
  have hle : ¬ form.max < n := Nat.not_lt_of_le hmax
  simp only [read, hds.digits hlimit hrest, hds.value_eq, hunpadded, hnonempty]
  cases hw : form.width with
  | none => simp [hle]
  | some w => simp [hfits w hw, hle]

end BitcoinCrawl.Numeral
