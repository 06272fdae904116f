/-!
# The log

What happens is logged in order, each entry with a level. Which entries are shown is for the command line
to decide.
-/

namespace MacroLang

inductive Level where
  | debug
  | info
  | warning
deriving DecidableEq, Repr

def Level.name : Level → String
  | debug => "DEBUG"
  | info => "INFO"
  | warning => "WARNING"

structure Entry where
  level : Level
  text : String
deriving DecidableEq, Repr

/-- The entries so far, oldest first. -/
abbrev Log := Array Entry

def Log.debug (log : Log) (text : String) : Log :=
  log.push ⟨.debug, text⟩

def Log.info (log : Log) (text : String) : Log :=
  log.push ⟨.info, text⟩

def Log.warning (log : Log) (text : String) : Log :=
  log.push ⟨.warning, text⟩

end MacroLang
