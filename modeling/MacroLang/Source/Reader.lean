import MacroLang.Token.Scan
import MacroLang.Tree.Shape

/-!
# From tokens to trees

The reader keeps the constructs that are still open, innermost first, and takes one token at a time: a
token opens a construct, closes the innermost one, or is a value of its own; a finished value goes into
the innermost open construct (`Frame.complete`). `readForms` reads a whole source text and `readValue`
a single value, both by recursion on the tokens.
-/

namespace MacroLang

/-- A construct that is still open, with its members so far, last one first. -/
inductive Frame where
  /-- A sign of quoting without its operand. -/
  | operand (sign : Sign) (start : Position)
  /-- A form of which only the opening bracket was read. -/
  | head (start : Position)
  | form (start : Position) (head : Value) (args : List Value)
  | list (start : Position) (items : List Value)
  | pair (start : Position) (items : List Value)

def Position.info (p : Position) : Info :=
  Info.read p.line p.column

/-- What the tokens read so far amount to. -/
inductive Progress where
  | finished (v : Value)
  | unfinished (frames : List Frame)

namespace Frame

/-- Puts a finished value into the innermost open construct. A sign is finished with its operand. -/
def complete (v : Value) : List Frame → Progress
  | [] => .finished v
  | operand sign start :: rest => complete (.call sign.form [v] start.info) rest
  | head start :: rest => .unfinished (form start v [] :: rest)
  | form start h args :: rest => .unfinished (form start h (v :: args) :: rest)
  | list start items :: rest => .unfinished (list start (v :: items) :: rest)
  | pair start items :: rest => .unfinished (pair start (v :: items) :: rest)

end Frame

/-- The head that a name stands for. A name with inner dots is a module and one of its functions, divided
at the last dot; dots at the ends belong to a plain name. -/
def headOfName (file : String) (p : Position) (name : String) : Except Error Value :=
  let segments := name.toList.splitOn '.'
  if segments.length < 2 || segments.head? == some [] || segments.getLast? == some [] then
    .ok (.text name)
  else if segments.contains [] then .error (.reading file (some p) (.invalidRemoteName name))
  else
    let module := ['.'].intercalate segments.dropLast
    Value.buildRemote (String.ofList module) (String.ofList (segments.getLast?.getD [])) p.info

/-- Reads a token that neither closes a construct nor stands for the head of a form. -/
def Frame.shift (file : String) (t : Token) (frames : List Frame) : Except Error Progress :=
  match t.lexeme with
  | .langle => .ok (.unfinished (head t.position :: frames))
  | .lparen => .ok (.unfinished (list t.position [] :: frames))
  | .lbracket => .ok (.unfinished (pair t.position [] :: frames))
  | .sign sign => .ok (.unfinished (operand sign t.position :: frames))
  | .atom name => .ok (complete (.atom name) frames)
  | .text s => .ok (complete (.text s) frames)
  | .number n => .ok (complete (.number n) frames)
  | .var name => .ok (complete (.var name .direct t.position.info) frames)
  | .rangle | .rparen | .rbracket => .error (.reading file (some t.position) (.unexpected t.lexeme))

/-- Reads a token behind the opening bracket of a form. -/
def Frame.shiftHead (file : String) (t : Token) (start : Position) (frames : List Frame) :
    Except Error Progress :=
  match t.lexeme with
  | .atom name => do
    let h ← headOfName file t.position name
    return .unfinished (form start h [] :: frames)
  | .langle | .var _ | .sign .unquote => shift file t (head start :: frames)
  | .rangle => .error (.reading file (some t.position) .emptyForm)
  | l => .error (.reading file (some t.position) (.invalidHead (some l)))

/-- Reads a token while constructs are open. -/
def Frame.step (file : String) (t : Token) (frames : List Frame) : Except Error Progress :=
  match frames, t.lexeme with
  | head start :: rest, _ => shiftHead file t start rest
  | form start h args :: rest, .rangle =>
    .ok (complete (Value.withHead h args.reverse start.info) rest)
  | list _ items :: rest, .rparen => .ok (complete (.list items.reverse) rest)
  | pair start items :: rest, .rbracket => match items with
    | [right, left] => .ok (complete (Value.pair left right) rest)
    | items => .error (.located (.pairSize items.length) start.info (some file))
  | frames, _ => shift file t frames

/-- The objection to a source text that ends while constructs are open. -/
def Frame.endCause : List Frame → ReadCause
  | [] => .unexpectedEnd
  | operand sign _ :: _ => .operandMissing sign.spelling
  | head _ :: _ => .invalidHead none
  | form start _ _ :: _ => .unterminated "form" start
  | list start _ :: _ => .unterminated "list" start
  | pair start _ :: _ => .unterminated "pair" start

/-- Reads one value and returns the tokens behind it. -/
def readValue (file : String) (stop : Position) (frames : List Frame) :
    List Token → Except Error (Value × List Token)
  | [] => .error (.reading file (some stop) (Frame.endCause frames))
  | t :: ts => do
    match ← Frame.step file t frames with
    | .finished v => return (v, ts)
    | .unfinished frames => readValue file stop frames ts

/-- Reads values up to the end of the text; `found` holds the values found so far, last one first. -/
def readForms (file : String) (stop : Position) (found : List Value) (frames : List Frame) :
    List Token → Except Error (List Value)
  | [] =>
    if frames.isEmpty then .ok found.reverse
    else .error (.reading file (some stop) (Frame.endCause frames))
  | t :: ts => do
    match ← Frame.step file t frames with
    | .finished v => readForms file stop (v :: found) [] ts
    | .unfinished frames => readForms file stop found frames ts

namespace Tokens

/-- The trees that the tokens of a source text spell. -/
def read (file : String) (ts : Tokens) : Except Error (List Value) :=
  readForms file ts.stop [] [] ts.tokens

/-- An objection at the first token. -/
def refuse (file : String) (ts : Tokens) (cause : ReadCause) : Error :=
  .reading file (some ts.current.2) cause

/-- The tokens from the second one on; the end of the text stays. -/
def advance (ts : Tokens) : Tokens :=
  { ts with tokens := ts.tokens.tail }

/-- Takes the first token if it is of the wanted class. -/
def expect (file : String) (want : TokenClass) (ts : Tokens) :
    Except Error (Option Lexeme × Position) :=
  if Lexeme.classOf ts.current.1 = want then .ok ts.current
  else .error (ts.refuse file (.expected want ts.current.1))

/-- Reads one value. -/
def readOne (file : String) (ts : Tokens) : Except Error (Value × Tokens) := do
  let (v, rest) ← readValue file ts.stop [] ts.tokens
  return (v, { ts with tokens := rest })

/-- Reads one value that starts with a token of the wanted class. -/
def readBracketed (file : String) (want : TokenClass) (ts : Tokens) :
    Except Error (Value × Tokens) := do
  let _ ← ts.expect file want
  ts.readOne file

/-- Reads a sign of quoting and its operand. -/
def readSigned (file : String) (ts : Tokens) : Except Error (Value × Tokens) :=
  let rest := ts.advance
  if rest.tokens.isEmpty then
    .error (rest.refuse file (.operandMissing ((ts.current.1.map Lexeme.content).getD "None")))
  else ts.readOne file

/-- Reads the head of a form. A plain name is a text. -/
def readHead (file : String) (ts : Tokens) : Except Error (Value × Tokens) :=
  match ts.current with
  | (some (.atom name), p) => do return (← headOfName file p name, ts.advance)
  | (some .langle, _) | (some (.var _), _) | (some (.sign .unquote), _) => ts.readOne file
  | (l, _) => .error (ts.refuse file (.invalidHead l))

end Tokens

/-- The trees in a source text. -/
def readSource (file source : String) : Except Error (List Value) := do
  let ts ← Tokens.scan file source
  ts.read file

end MacroLang
