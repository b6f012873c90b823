set_option autoImplicit false

/-! # Durations

Spans of virtual time are whole milliseconds. Log lines write them in the largest of `s` and `ms` that
leaves a whole part, with the fraction cut after its last digit that is not zero. -/

namespace BitcoinCrawl

/-- A span of time in milliseconds. -/
abbrev Millis := Nat

namespace Millis

/-- The digits of a fraction of a second given in milliseconds, without trailing zeros. -/
def fraction (ms : Nat) : String :=
  let padded := toString (1000 + ms)
  String.ofList (((padded.toList.drop 1).reverse.dropWhile (· == '0')).reverse)

/-- Text of a span: `20s`, `1.5s`, `700ms`, and `0ns` for none at all. -/
def text (span : Millis) : String :=
  if span = 0 then "0ns"
  else if span < 1000 then s!"{span}ms"
  else if span % 1000 = 0 then s!"{span / 1000}s"
  else s!"{span / 1000}.{fraction (span % 1000)}s"

end Millis

end BitcoinCrawl
