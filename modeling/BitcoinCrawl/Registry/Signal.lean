set_option autoImplicit false

/-! # Wake-up signals

Whoever finds the discovery queue empty waits for a signal. A signal wakes the listener that has waited
longest; with nobody waiting it is kept, but never more than one. A listener that goes away after it was
woken passes the signal on, so none is lost. -/

namespace BitcoinCrawl

/-- Who is waiting: each has a number of its own. -/
abbrev Listener := Nat

/-- A signal with its listeners. -/
structure Signal where
  /-- Whether a signal is kept for the next one to ask. -/
  kept : Bool := false
  /-- Listeners that wait, longest first. -/
  waiting : List Listener := []
  /-- Listeners that were woken and have not noticed yet. -/
  woken : List Listener := []
  deriving DecidableEq, Inhabited

namespace Signal

/-- Wake one listener, or keep the signal. -/
def notify (signal : Signal) : Signal :=
  match signal.waiting with
  | [] => { signal with kept := true }
  | listener :: rest => { signal with waiting := rest, woken := signal.woken ++ [listener] }

/-- Start to wait. A kept signal is used up at once, and then `false` says that nobody waits. -/
def listen (listener : Listener) (signal : Signal) : Signal × Bool :=
  if signal.kept then ({ signal with kept := false }, false)
  else ({ signal with waiting := signal.waiting ++ [listener] }, true)

/-- Whether a listener was woken. -/
def isWoken (listener : Listener) (signal : Signal) : Bool := signal.woken.contains listener

/-- A woken listener stops waiting. -/
def accept (listener : Listener) (signal : Signal) : Signal :=
  { signal with woken := signal.woken.erase listener }

/-- A listener goes away. If it was woken the signal goes to the next one. -/
def leave (listener : Listener) (signal : Signal) : Signal :=
  if signal.isWoken listener then (signal.accept listener).notify
  else { signal with waiting := signal.waiting.erase listener }

end Signal

end BitcoinCrawl
