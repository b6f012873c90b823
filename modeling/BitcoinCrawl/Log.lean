set_option autoImplicit false

/-! # Log lines

What the crawl reports about itself, as plain data: a severity and a text. Tasks append lines to the log
of the state they work on, so the order of lines is the order of events. -/

namespace BitcoinCrawl

/-- How serious a log line is. -/
inductive Level where
  | error
  | warn
  | info
  | debug
  deriving DecidableEq

namespace Level

/-- Name of the level as it is printed. -/
def name : Level → String
  | error => "ERROR"
  | warn => "WARN"
  | info => "INFO"
  | debug => "DEBUG"

end Level

/-- One reported event. -/
structure LogLine where
  level : Level
  text : String
  deriving DecidableEq

namespace LogLine

/-- The line as it is printed, level first. -/
def render (line : LogLine) : String := s!"{line.level.name} {line.text}"

def error (text : String) : LogLine := ⟨.error, text⟩

def warn (text : String) : LogLine := ⟨.warn, text⟩

def info (text : String) : LogLine := ⟨.info, text⟩

def debug (text : String) : LogLine := ⟨.debug, text⟩

end LogLine

/-- Log lines, oldest first. -/
abbrev Log := Array LogLine

end BitcoinCrawl
