set_option autoImplicit false

/-! # Asking and waiting

Nothing here blocks. Whoever asks for something at one instant gets it, or learns when asking again could
help; a task that is driven step by step has finished, has moved on, or waits. -/

namespace BitcoinCrawl

/-- Outcome of asking for something at one instant. -/
inductive Poll (α : Type) where
  | ready (a : α)
  /-- Not yet. Time alone changes that at the given instant, or never. -/
  | waiting (wake : Option Nat)

/-- Outcome of one step of something that is driven until it has a result. -/
inductive Advance (α : Type) where
  | finished (a : α)
  /-- There was progress, so the next step can follow at once. -/
  | moved
  /-- Nothing can happen yet. Time alone changes that at the given instant, or never. -/
  | waiting (wake : Option Nat)

/-- The earlier of two instants, either of which may never come. -/
def earlier : Option Nat → Option Nat → Option Nat
  | none, t => t
  | t, none => t
  | some t, some u => some (min t u)

end BitcoinCrawl
