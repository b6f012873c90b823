import BitcoinCrawl.Nonce
import Mathlib.Data.List.Nodup
import Mathlib.Data.Nat.Bitwise
import Mathlib.Tactic.SplitIfs

set_option autoImplicit false

/-! # Nonces that are not the same

While the clock stands still only the counter tells nonces apart. Its factor is odd, so each word is drawn at just one
counter value (`rawNonce_eq_iff`), and two nonces can only be the same because one of them stands in for zero
(`nonce_eq_iff`). It takes more than `10 ^ 18` draws from one of the two counter values where that happens to the other
(`Clash.apart`), so whoever draws fewer gets no nonce twice. -/

namespace BitcoinCrawl.Host

variable {host : Host} {count count' word : UInt64}

/-! ## Raw words -/

/-- The factor that takes back what `stride` does to a counter. -/
def unstride : UInt64 := 0xf1de83e19937733d

/-- The counter value at which a word is drawn. -/
def drawnAt (host : Host) (word : UInt64) : UInt64 :=
  (host.wallNanos ^^^ host.processWord ^^^ word) * unstride

theorem stride_mul_unstride : stride * unstride = 1 := by decide

theorem mul_stride_eq_iff : count * stride = word ↔ count = word * unstride := by
  constructor
  · intro h
    rw [← h, UInt64.mul_assoc, stride_mul_unstride, UInt64.mul_one]
  · intro h
    rw [h, UInt64.mul_assoc, UInt64.mul_comm unstride, stride_mul_unstride, UInt64.mul_one]

/-- Every word is drawn, and just once. -/
theorem rawNonce_eq_iff : host.rawNonce count = word ↔ count = host.drawnAt word := by
  have hxor : ∀ base : UInt64, base ^^^ count * stride = word ↔ count * stride = base ^^^ word := by
    intro base
    rw [← UInt64.xor_right_inj base, ← UInt64.xor_assoc, UInt64.xor_self, UInt64.zero_xor]
  exact (hxor _).trans mul_stride_eq_iff

theorem rawNonce_inj : host.rawNonce count = host.rawNonce count' ↔ count = count' := by
  constructor
  · intro h
    rw [rawNonce_eq_iff.mp h, ← rawNonce_eq_iff.mp rfl]
  · intro h
    rw [h]

/-! ## The clamp -/

theorem nonce_eq (host : Host) (count : UInt64) :
    host.nonce count = if host.rawNonce count ≤ 1 then 1 else host.rawNonce count := rfl

/-- No nonce that we draw is zero. -/
theorem nonce_ne_zero (host : Host) (count : UInt64) : host.nonce count ≠ 0 := by
  rw [nonce_eq]
  split_ifs with hsmall
  · decide
  · intro hzero
    rw [hzero] at hsmall
    exact hsmall (by decide)

/-- Two counter values of which one draws the word zero and the other the word that stands in for it. -/
def Clash (host : Host) (count count' : UInt64) : Prop :=
  (host.rawNonce count = 0 ∧ host.rawNonce count' = 1) ∨ (host.rawNonce count = 1 ∧ host.rawNonce count' = 0)

theorem le_one_iff : word ≤ 1 ↔ word = 0 ∨ word = 1 := by
  rw [UInt64.le_iff_toNat_le, ← UInt64.toNat_inj, ← UInt64.toNat_inj]
  exact Nat.le_one_iff_eq_zero_or_eq_one

/-- Two words up to one are the same, or one is zero and the other is not. -/
theorem clash_of_le (h : host.rawNonce count ≤ 1) (h' : host.rawNonce count' ≤ 1) :
    count = count' ∨ host.Clash count count' := by
  rcases le_one_iff.mp h with hzero | hone <;> rcases le_one_iff.mp h' with hzero' | hone'
  · exact .inl (rawNonce_inj.mp (hzero.trans hzero'.symm))
  · exact .inr (.inl ⟨hzero, hone'⟩)
  · exact .inr (.inr ⟨hone, hzero'⟩)
  · exact .inl (rawNonce_inj.mp (hone.trans hone'.symm))

theorem Clash.nonce_eq (h : host.Clash count count') : host.nonce count = host.nonce count' := by
  rcases h with ⟨hraw, hraw'⟩ | ⟨hraw, hraw'⟩ <;> simp only [Host.nonce_eq, hraw, hraw'] <;> decide

theorem nonce_eq_iff : host.nonce count = host.nonce count' ↔ count = count' ∨ host.Clash count count' := by
  constructor
  · intro h
    rw [nonce_eq, nonce_eq] at h
    split_ifs at h with hsmall hsmall' hsmall'
    · exact clash_of_le hsmall hsmall'
    · exact absurd (by rw [← h]; decide) hsmall'
    · exact absurd (by rw [h]; decide) hsmall
    · exact .inl (rawNonce_inj.mp h)
  · rintro (rfl | hclash)
    · rfl
    · exact hclash.nonce_eq

/-! ## How far apart the counters are that clash -/

theorem xor_one (word : UInt64) : word ^^^ 1 = word + 1 ∨ word = (word ^^^ 1) + 1 := by
  have hbound := word.toNat_lt
  have hxor : (word ^^^ 1).toNat = word.toNat ^^^ 1 := UInt64.toNat_xor word 1
  rcases Nat.even_or_odd word.toNat with heven | hodd
  · left
    rw [Nat.xor_one_of_even heven] at hxor
    obtain ⟨half, hhalf⟩ := heven
    rw [← UInt64.toNat_inj, hxor, UInt64.toNat_add, UInt64.toNat_one, Nat.mod_eq_of_lt (by omega)]
  · right
    rw [Nat.xor_one_of_odd hodd] at hxor
    obtain ⟨half, hhalf⟩ := hodd
    rw [← UInt64.toNat_inj, UInt64.toNat_add, hxor, UInt64.toNat_one, Nat.mod_eq_of_lt (by omega)]
    omega

/-- The counter values at which two neighbouring words are drawn lie one `unstride` apart. -/
theorem drawnAt_one (host : Host) :
    host.drawnAt 1 = host.drawnAt 0 + unstride ∨ host.drawnAt 0 = host.drawnAt 1 + unstride := by
  have hnext : ∀ word : UInt64, (word + 1) * unstride = word * unstride + unstride := by
    intro word
    rw [UInt64.add_mul, UInt64.one_mul]
  simp only [drawnAt, UInt64.xor_zero]
  rcases xor_one (host.wallNanos ^^^ host.processWord) with hup | hdown
  · left
    rw [hup, hnext]
  · right
    rw [← hnext, ← hdown]

theorem Clash.apart (h : host.Clash count count') : count' = count + unstride ∨ count = count' + unstride := by
  rcases h with ⟨hraw, hraw'⟩ | ⟨hraw, hraw'⟩
  · rw [rawNonce_eq_iff.mp hraw, rawNonce_eq_iff.mp hraw']
    exact host.drawnAt_one
  · rw [rawNonce_eq_iff.mp hraw, rawNonce_eq_iff.mp hraw']
    exact host.drawnAt_one.symm

/-! ## Draws in a row -/

/-- The nonces of some draws in a row, while the clock stands still. -/
def nonces (host : Host) (first : UInt64) (draws : Nat) : List UInt64 :=
  (List.range draws).map fun i => host.nonce (first + UInt64.ofNat i)

/-- How many draws it takes at least from one of two counter values that clash to the other. -/
def clashGap : Nat := 1018231460777725123

theorem toNat_unstride : unstride.toNat = 2 ^ 64 - clashGap := by decide

theorem toNat_ofNat_of_le {i : Nat} (h : i ≤ clashGap) : (UInt64.ofNat i).toNat = i :=
  UInt64.toNat_ofNat_of_lt (h.trans_lt (by decide))

/-- Closer to each other than `clashGap` no counter values are one `unstride` apart. -/
theorem add_ofNat_ne {first : UInt64} {i j : Nat} (hi : i < clashGap) (hj : j < clashGap) :
    first + UInt64.ofNat j ≠ first + UInt64.ofNat i + unstride := by
  intro h
  rw [UInt64.add_assoc, UInt64.add_right_inj, ← UInt64.toNat_inj, UInt64.toNat_add, toNat_ofNat_of_le hi.le,
    toNat_ofNat_of_le hj.le, toNat_unstride] at h
  -- Nothing wraps around, and `unstride` alone is already more than `clashGap`.
  unfold clashGap at hi hj h
  omega

theorem nodup_nonces (host : Host) (first : UInt64) {draws : Nat} (h : draws ≤ clashGap) :
    (host.nonces first draws).Nodup := by
  refine List.Nodup.map_on ?_ List.nodup_range
  intro i hi j hj hsame
  have hi : i < clashGap := (List.mem_range.mp hi).trans_le h
  have hj : j < clashGap := (List.mem_range.mp hj).trans_le h
  rcases nonce_eq_iff.mp hsame with heq | hclash
  · rw [UInt64.add_right_inj, ← UInt64.toNat_inj, toNat_ofNat_of_le hi.le, toNat_ofNat_of_le hj.le] at heq
    exact heq
  · rcases hclash.apart with hapart | hapart
    · exact absurd hapart (add_ofNat_ne hi hj)
    · exact absurd hapart (add_ofNat_ne hj hi)

theorem add_clashGap_of_apart (h : count' = count + unstride) : count' + UInt64.ofNat clashGap = count := by
  have hround : unstride + UInt64.ofNat clashGap = 0 := by decide
  rw [h, UInt64.add_assoc, hround, UInt64.add_zero]

theorem not_nodup_of_clash (hclash : host.Clash count count') (h : count' + UInt64.ofNat clashGap = count) :
    ¬ (host.nonces count' (clashGap + 1)).Nodup := by
  intro hnodup
  have hfirst : 0 ∈ List.range (clashGap + 1) := List.mem_range.mpr (Nat.succ_pos clashGap)
  have hlast : clashGap ∈ List.range (clashGap + 1) := List.mem_range.mpr (Nat.lt_succ_self clashGap)
  have hsame : host.nonce (count' + UInt64.ofNat 0) = host.nonce (count' + UInt64.ofNat clashGap) := by
    rw [h]
    exact (congrArg host.nonce (UInt64.add_zero count')).trans hclash.nonce_eq.symm
  have hzero : 0 = clashGap := List.inj_on_of_nodup_map hnodup hfirst hlast hsame
  exact absurd hzero (by decide)

/-- One draw more may be too many. -/
theorem exists_repeated (host : Host) : ∃ first, ¬ (host.nonces first (clashGap + 1)).Nodup := by
  have hzero : host.rawNonce (host.drawnAt 0) = 0 := rawNonce_eq_iff.mpr rfl
  have hone : host.rawNonce (host.drawnAt 1) = 1 := rawNonce_eq_iff.mpr rfl
  rcases host.drawnAt_one with hup | hdown
  · exact ⟨_, not_nodup_of_clash (.inl ⟨hzero, hone⟩) (add_clashGap_of_apart hup)⟩
  · exact ⟨_, not_nodup_of_clash (.inr ⟨hone, hzero⟩) (add_clashGap_of_apart hdown)⟩

/-- **No nonce is zero, and on a clock that stands still two counter values draw the same nonce exactly if they are
    the same, or one of them draws the word zero and the other the word one, which stands in for it.**

    * Every word is drawn at exactly one counter value, so whatever the clock and the process id are there is just one
      pair of counter values that draw the same nonce.
    * Draws in a row give different nonces as long as they are not more than `clashGap`, which is above `10 ^ 18`. With
      one draw more there is somewhere to begin that gives a nonce twice. -/
theorem nonces_distinct (host : Host) :
    (∀ count, host.nonce count ≠ 0) ∧
      (∀ count count', host.nonce count = host.nonce count' ↔ count = count' ∨ host.Clash count count') ∧
      (∀ word, ∃! count, host.rawNonce count = word) ∧
      (∀ first draws, draws ≤ clashGap → (host.nonces first draws).Nodup) ∧
      ∃ first, ¬ (host.nonces first (clashGap + 1)).Nodup := by
  refine ⟨host.nonce_ne_zero, fun _ _ => nonce_eq_iff, fun word => ?_, fun first _ => host.nodup_nonces first,
    host.exists_repeated⟩
  exact ⟨host.drawnAt word, rawNonce_eq_iff.mpr rfl, fun _ => rawNonce_eq_iff.mp⟩

/-- A host at some instant. -/
def someHost : Host where
  wallNanos := 1700000000000000000
  processId := 4242

/-- Two counter values that draw the same nonce at one instant. -/
theorem nonces_clash :
    someHost.nonce 0xa3b9cf23c6020000 = 1 ∧ someHost.nonce 0x959853055f39733d = 1 ∧
      ¬ ∀ (host : Host) (count count' : UInt64), count ≠ count' → host.nonce count ≠ host.nonce count' := by
  have hzero : someHost.nonce 0xa3b9cf23c6020000 = 1 := by decide
  have hone : someHost.nonce 0x959853055f39733d = 1 := by decide
  refine ⟨hzero, hone, fun hall => ?_⟩
  exact hall someHost 0xa3b9cf23c6020000 0x959853055f39733d (by decide) (hzero.trans hone.symm)

end BitcoinCrawl.Host
