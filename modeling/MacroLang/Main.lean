import MacroLang.CommandLine.Run

/-!
# The command-line program
-/

open MacroLang

/-- The text of a file, if it can be read. -/
def readSourceFile (name : String) : IO (Option String) := do
  try return some (← IO.FS.readFile name) catch _ => return none

def main (arguments : List String) : IO UInt32 := do
  let mut files := []
  for name in CommandLine.sources arguments do
    if let some text ← readSourceFile name then
      files := (name, text) :: files
  let outcome := CommandLine.execute arguments (Files.ofList files)
  IO.print outcome.out
  IO.eprint outcome.err
  if let some e := outcome.escaped then IO.eprintln e.message
  return UInt32.ofNat outcome.exit
