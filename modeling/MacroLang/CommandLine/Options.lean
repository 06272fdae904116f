import MacroLang.Expansion.Basic
import MacroLang.Text.Digit

/-!
# Command-line options

The arguments are options, the name of the input file, and everything behind a lone `--`, which is never an option.
A long option may be cut short as long as it is clear which one is meant, and a value may be joined to its option:
to a long one by `=`, to a short one directly or by `=`. Where a value is joined, `--` sets the option to no value.
-/

namespace MacroLang.CommandLine

structure Options where
  input : String := ""
  expand : Bool := false
  call : Option String := none
  included : List (Option String) := []
  maxDepth : Option Int := some defaultMaxDepth
  jobs : Option Int := some 1
  verbose : Bool := false

/-- The options there are. -/
inductive Switch where
  | help
  | expand
  | call
  | included
  | maxDepth
  | jobs
  | verbose
deriving DecidableEq, Repr

namespace Switch

def spellings : Switch → List String
  | help => ["-h", "--help"]
  | expand => ["--expand"]
  | call => ["--call"]
  | included => ["-i", "--include"]
  | maxDepth => ["--max-depth"]
  | jobs => ["-j", "--jobs"]
  | verbose => ["--verbose"]

def takesValue : Switch → Bool
  | help | expand | verbose => false
  | call | included | maxDepth | jobs => true

def all : List Switch :=
  [help, expand, call, included, maxDepth, jobs, verbose]

/-- Every spelling with the option it stands for. -/
def table : List (String × Switch) :=
  all.flatMap fun s => s.spellings.map (·, s)

end Switch

/-- Why the arguments are not run. -/
inductive Refusal where
  | helpWanted
  | ambiguous (argument : String) (matching : List String)
  | valueMissing (s : Switch)
  | valueIgnored (s : Switch) (value : String)
  | notInteger (s : Switch) (value : String)
  | inputMissing
  | unrecognized (arguments : List String)

def Refusal.message : Refusal → String
  | helpWanted => ""
  | ambiguous argument matching =>
    "ambiguous option: " ++ argument ++ " could match " ++ ", ".intercalate matching
  | valueMissing s => "argument " ++ "/".intercalate s.spellings ++ ": expected one argument"
  | valueIgnored s value =>
    "argument " ++ "/".intercalate s.spellings ++ ": ignored explicit argument " ++ Text.quoted value
  | notInteger s value =>
    "argument " ++ "/".intercalate s.spellings ++ ": invalid int value: " ++ Text.quoted value
  | inputMissing => "the following arguments are required: input"
  | unrecognized arguments => "unrecognized arguments: " ++ " ".intercalate arguments

/-! ## Sorting the arguments -/

/-- What an argument is. -/
inductive Argument where
  | plain (s : String)
  | divider
  /-- An option, perhaps with a value joined to it, and whether it is spelled short. -/
  | option (s : Switch) (value : Option String) (short : Bool)
  | unknown (s : String)

/-- Splits a text at its first `=`. -/
def splitEquals (s : String) : Option (String × String) :=
  match s.toList.span (· ≠ '=') with
  | (name, '=' :: value) => some (String.ofList name, String.ofList value)
  | _ => none

/-- The characters of a text without the end of its last line. -/
def lineChars (s : String) : List Char :=
  let cs := s.toList
  if cs.getLast? == some '\n' then cs.dropLast else cs

/-- Does the text look like a negative number? -/
def isNegativeNumber (s : String) : Bool :=
  match lineChars s with
  | '-' :: rest => match rest.span Text.isDigit with
    | (whole, []) => !whole.isEmpty
    | (_, '.' :: fraction) => !fraction.isEmpty && fraction.all Text.isDigit
    | _ => false
  | _ => false

/-- The options that a text may stand for, with the value joined to it. -/
def candidates (s : String) : List (String × Argument) :=
  if s.startsWith "--" then
    let (name, value) := match splitEquals s with
      | some (name, value) => (name, some value)
      | none => (s, none)
    (Switch.table.filter (·.1.startsWith name)).map fun (spelling, switch) =>
      (spelling, .option switch value false)
  else
    let short := String.ofList (s.toList.take 2)
    (Switch.table.filter (·.1 == short)).map fun (spelling, switch) =>
      (spelling, .option switch (some (String.ofList (s.toList.drop 2))) true)

/-- What an argument before the divider is. -/
def sortOne (s : String) : Except Refusal Argument :=
  if !s.startsWith "-" then .ok (.plain s)
  else match Switch.table.lookup s with
    | some switch => .ok (.option switch none false)
    | none =>
      if s == "-" then .ok (.plain s)
      else match (splitEquals s).bind fun (name, value) =>
          (Switch.table.lookup name).map fun switch =>
            Argument.option switch (some value) !(name.startsWith "--") with
        | some argument => .ok argument
        | none => match candidates s with
          | [(_, argument)] => .ok argument
          | [] =>
            if isNegativeNumber s || s.toList.contains ' ' then .ok (.plain s) else .ok (.unknown s)
          | several => .error (.ambiguous s (several.map (·.1)))

/-- Sorts the arguments. -/
def sort : List String → Except Refusal (List Argument)
  | [] => .ok []
  | s :: rest =>
    if s == "--" then .ok (.divider :: rest.map .plain)
    else do
      let a ← sortOne s
      let as ← sort rest
      return a :: as

/-! ## Reading the arguments -/

/-- The characters that may surround an integer: blanks, line ends and other separators. -/
def spaceRanges : List Text.CharRange :=
  [(9, 13), (32, 32), (133, 133), (160, 160), (5760, 5760), (8192, 8202), (8232, 8233),
    (8239, 8239), (8287, 8287), (12288, 12288)]

def isSpace (c : Char) : Bool :=
  Text.inRanges spaceRanges c

/-- Takes single underscores between digits out. -/
def joinDigits : List Char → Option (List Char)
  | [] => none
  | [c] => if Text.isDigit c then some [c] else none
  | c :: '_' :: rest => if Text.isDigit c then (joinDigits rest).map (c :: ·) else none
  | c :: rest => if Text.isDigit c then (joinDigits rest).map (c :: ·) else none

/-- An integer: digits of any script and not too many, perhaps with underscores between them, a sign and space around
it. -/
def readInt? (s : String) : Option Int :=
  let trimmed := ((s.toList.dropWhile isSpace).reverse.dropWhile isSpace).reverse
  let (negative, digits) := match trimmed with
    | '-' :: rest => (true, rest)
    | '+' :: rest => (false, rest)
    | cs => (false, cs)
  ((joinDigits digits).filter (·.length ≤ Number.maxDigits)).map fun ds =>
    let n : Int := Text.digitsValue ds
    if negative then -n else n

def intValue (s : Switch) (value : String) : Except Refusal Int :=
  match readInt? value with
  | some n => .ok n
  | none => .error (.notInteger s value)

/-- Sets an option that takes a value. -/
def setValue (o : Options) (s : Switch) (value : String) : Except Refusal Options :=
  let value := if value == "--" then none else some value
  match s with
  | .call => .ok { o with call := value }
  | .included => .ok { o with included := o.included ++ [value] }
  | .maxDepth => do return { o with maxDepth := ← value.mapM (intValue s) }
  | .jobs => do return { o with jobs := ← value.mapM (intValue s) }
  | _ => .ok o

/-- Sets an option that takes no value. -/
def setFlag (o : Options) : Switch → Except Refusal Options
  | .help => .error .helpWanted
  | .expand => .ok { o with expand := true }
  | .verbose => .ok { o with verbose := true }
  | _ => .ok o

/-- Why a short option that takes no value is refused with text joined to it. The text is more short options, the
last one perhaps with its value; the only short option that takes no value asks for help, so there is always a
reason. -/
def refuseJoined (s : Switch) (valueFollows : Bool) : List Char → Refusal
  | [] => .valueIgnored s ""
  | c :: rest => match Switch.table.lookup (String.ofList ['-', c]) with
    | none => .valueIgnored s (String.ofList (c :: rest))
    | some next =>
      if next.takesValue then
        if rest.isEmpty && !valueFollows then .valueMissing next else .helpWanted
      else if rest.isEmpty then .helpWanted
      else refuseJoined next valueFollows rest

/-- What was read so far: the options, the input, and what nobody asked for. -/
structure Reading where
  options : Options := {}
  input : Option String := none
  extras : List String := []

/-- Reads the arguments in order. The first plain one is the input; a divider next to it is dropped. -/
def readArguments (r : Reading) : List Argument → Except Refusal Reading
  | [] => .ok r
  | .option s (some value) short :: rest => do
    if !s.takesValue then
      throw (if short then refuseJoined s (rest matches .plain _ :: _) value.toList
        else .valueIgnored s value)
    readArguments { r with options := ← setValue r.options s value } rest
  | .option s none _ :: rest =>
    if s.takesValue then
      match rest with
      | .plain value :: rest => do
        readArguments { r with options := ← setValue r.options s value } rest
      | _ => .error (.valueMissing s)
    else do readArguments { r with options := ← setFlag r.options s } rest
  | .unknown s :: rest => readArguments { r with extras := r.extras ++ [s] } rest
  | .plain s :: rest =>
    match r.input with
    | some _ => readArguments { r with extras := r.extras ++ [s] } rest
    | none => match rest with
      | .divider :: rest => readArguments { r with input := some s } rest
      | rest => readArguments { r with input := some s } rest
  | .divider :: rest =>
    match r.input, rest with
    | none, .plain s :: rest => readArguments { r with input := some s } rest
    | _, rest => readArguments { r with extras := r.extras ++ ["--"] } rest

/-- The options that the arguments set. -/
def read (arguments : List String) : Except Refusal Options := do
  let r ← readArguments {} (← sort arguments)
  match r.input with
  | none => throw .inputMissing
  | some input =>
    if !r.extras.isEmpty then throw (.unrecognized r.extras)
    return { r.options with input }

end MacroLang.CommandLine
