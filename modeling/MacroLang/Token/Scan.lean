import MacroLang.Error
import MacroLang.Text.Digit
import MacroLang.Text.Letter

/-!
# From text to tokens

Words end at delimiters: brackets, quotes, the signs of quoting, semicolons and blanks. A word is an
integer, a decimal, a variable or an atom (`Lexeme.ofWord`). Texts stand in double quotes, and a
semicolon starts a comment that runs to the end of the line. `Tokens.scan` reads one character at a
time; what it is in the middle of is a `Mode`.
-/

namespace MacroLang

def isBlank (c : Char) : Bool :=
  c == ' ' || c == '\t' || c == '\n' || c == '\r' || c == '\x0c'

/-- The characters that end a word. -/
def isDelimiter (c : Char) : Bool :=
  isBlank c || c == '<' || c == '>' || c == '(' || c == ')' || c == '[' || c == ']' || c == '\"'
    || c == ';' || c == '\x60' || c == '~'

/-! ## Words -/

/-- Takes a leading sign off; true for a minus. -/
def splitSign : List Char → Bool × List Char
  | '-' :: rest => (true, rest)
  | '+' :: rest => (false, rest)
  | cs => (false, cs)

/-- The integer that a word stands for: digits of any script behind at most one sign. -/
def intOfWord? (word : List Char) : Option Int :=
  let (negative, digits) := splitSign word
  if digits.isEmpty || !digits.all Text.isDigit then none
  else
    let size : Int := Text.digitsValue digits
    some (if negative then -size else size)

/-- The exponent at the end of a decimal: nothing, or `e` and an integer. -/
def exponentOfWord? : List Char → Option Int
  | [] => some 0
  | c :: rest => if c == 'e' || c == 'E' then intOfWord? rest else none

/-- The double that a word stands for: a point with digits on both sides and perhaps an exponent. -/
def floatOfWord? (word : List Char) : Option Float :=
  let (negative, rest) := splitSign word
  let whole := rest.takeWhile Text.isDigit
  match rest.dropWhile Text.isDigit with
  | '.' :: rest =>
    let fraction := rest.takeWhile Text.isDigit
    if whole.isEmpty || fraction.isEmpty then none
    else (exponentOfWord? (rest.dropWhile Text.isDigit)).map fun exponent =>
      let digits := whole ++ fraction
      Double.ofDecimal negative (Text.digitsValue digits) digits.length (exponent - fraction.length)
  | _ => none

/-- The name in a word that is written as a variable: a dot, then a letter or an underscore. -/
def variableOfWord? : List Char → Option (List Char)
  | '.' :: c :: rest => if Text.isLetter c || c == '_' then some (c :: rest) else none
  | _ => none

/-- The token that a word is. The name of a variable holds no dot. -/
def Lexeme.ofWord (word : List Char) : Except ReadCause Lexeme :=
  match intOfWord? word, floatOfWord? word, variableOfWord? word with
  | some n, _, _ => .ok (.number (.int n))
  | none, some x, _ => .ok (.number (.float x))
  | none, none, some name =>
    if name.contains '.' then .error (.invalidVariable (String.ofList word))
    else .ok (.var (String.ofList name))
  | none, none, none => .ok (.atom (String.ofList word))

/-- What an escaped character in a text stands for. -/
def unescape : Char → Char
  | 'n' => '\n'
  | 't' => '\t'
  | 'r' => '\r'
  | c => c

/-! ## The scanner -/

/-- What the scanner is in the middle of, with the position it started at and the characters read so
far, last one first. -/
inductive Mode where
  | between
  | comment
  | word (start : Position) (chars : List Char)
  | text (start : Position) (chars : List Char)
  | escape (start : Position) (chars : List Char)
  | tilde (start : Position)

/-- Reads a character at which no token is open. -/
def Mode.begin (p : Position) (c : Char) : List Token × Mode :=
  if isBlank c then ([], between)
  else match c with
    | ';' => ([], comment)
    | '<' => ([⟨.langle, p⟩], between)
    | '>' => ([⟨.rangle, p⟩], between)
    | '(' => ([⟨.lparen, p⟩], between)
    | ')' => ([⟨.rparen, p⟩], between)
    | '[' => ([⟨.lbracket, p⟩], between)
    | ']' => ([⟨.rbracket, p⟩], between)
    | '\x60' => ([⟨.sign .quote, p⟩], between)
    | '~' => ([], tilde p)
    | '\"' => ([], text p [])
    | c => ([], word p [c])

/-- The token of a finished word; an objection to it is made at the position behind the word, but an integer that is
too long has no position. -/
def wordToken (file : String) (start : Position) (chars : List Char) (stop : Position) :
    Except Error Token :=
  match Lexeme.ofWord chars.reverse with
  | .ok (.number (.int n)) =>
    let digits := (splitSign chars.reverse).2.length
    if digits ≤ Number.maxDigits then .ok ⟨.number (.int n), start⟩
    else .error (.usage (.digitLimit (some digits)))
  | .ok lexeme => .ok ⟨lexeme, start⟩
  | .error cause => .error (.reading file (some stop) cause)

/-- The tokens that the character at `p` finishes, and the mode behind it. -/
def Mode.step (file : String) (p : Position) (c : Char) : Mode → Except Error (List Token × Mode)
  | between => .ok (begin p c)
  | comment => .ok ([], if c == '\n' then between else comment)
  | word start chars =>
    if isDelimiter c then do
      let token ← wordToken file start chars p
      let (tokens, mode) := begin p c
      return (token :: tokens, mode)
    else .ok ([], word start (c :: chars))
  | text start chars =>
    if c == '\"' then .ok ([⟨.text (String.ofList chars.reverse), start⟩], between)
    else if c == '\\' then .ok ([], escape start chars)
    else .ok ([], text start (c :: chars))
  | escape start chars => .ok ([], text start (unescape c :: chars))
  | tilde start =>
    if c == '!' then .ok ([⟨.sign .splice, start⟩], between)
    else
      let (tokens, mode) := begin p c
      .ok (⟨.sign .unquote, start⟩ :: tokens, mode)

/-- The tokens that the end of the source text finishes. -/
def Mode.finish (file : String) (p : Position) : Mode → Except Error (List Token)
  | between | comment => .ok []
  | word start chars => do return [← wordToken file start chars p]
  | text .. | escape .. => .error (.reading file (some p) .unterminatedText)
  | tilde start => .ok [⟨.sign .unquote, start⟩]

/-- Scans the rest of a source text; `found` holds the tokens found so far, last one first. -/
def Tokens.scanFrom (file : String) (found : List Token) (mode : Mode) (p : Position) :
    List Char → Except Error Tokens
  | [] => do
    let last ← mode.finish file p
    return ⟨found.reverse ++ last, p⟩
  | c :: cs => do
    let (tokens, mode) ← mode.step file p c
    scanFrom file (tokens.reverse ++ found) mode (p.step c) cs

/-- The tokens of a source text. -/
def Tokens.scan (file source : String) : Except Error Tokens :=
  scanFrom file [] .between .start source.toList

end MacroLang
