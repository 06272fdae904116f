import MacroLang.Token.Basic
import MacroLang.Tree.Text

/-!
# Errors

An error is a cause, the place of the node it arose at, and the file that was being compiled. Each cause
is a constructor that carries what its message shows; `Cause.kind` sorts the causes and `Cause.message`
has the wording. Errors of the reader carry a position of their own (`Error.reading`).
-/

namespace MacroLang

/-- The sorts of errors that arise at a node. -/
inductive ErrorKind where
  | malformedNode
  | duplicateMacro
  | specialFormOverride
  | spliceArity
  | expansionDepth
  | unresolvedCall
  | registryFrozen
  | compile
  | evaluation
deriving DecidableEq, Repr

inductive Cause where
  -- building trees
  | emptyHead
  | headType (typeName : String)
  | infoType (typeName : String)
  | contextAsArguments (head : Value)
  | argumentsType (typeName : String)
  | variableName (got : Value)
  | variableContext (name : String) (typeName : String)
  | atomName (got : Value)
  | notScope (got : Value)
  | tupleSize (size : Nat)
  | notTree (got : Value)
  | notNumber (got : Value)
  | notText (got : Value)
  | pairSize (size : Nat)
  | outsideQuote (form : String)
  -- quoting
  | cannotUnquote (got : Value) (why : Cause)
  | spliceOperand (got : Value)
  | splicePlace
  | escapeOperand (got : Value)
  | escapeArity (count : Nat)
  | escapeTarget (got : Value)
  -- macros
  | duplicateMacro (scope name : String) (arity : Nat)
  | specialForm (name : String) (arity : Nat)
  | registryFinalized (unit scope : String)
  | scopeFinalized (scope : String)
  | scopeConflict (scope owner unit : String)
  | depthExceeded (name : String) (arity maxDepth : Nat)
  | invalidResult (name : String) (arity : Nat) (why : Cause)
  -- declarations and definitions
  | aliasName (short : String)
  | moduleExpected (got : Value)
  | aliasArity (count : Nat)
  | dependencyArity (form : String) (count : Nat)
  | nestedModule (scope : String)
  | moduleNameMissing
  | moduleDefined (name : String)
  | nameMissing (form : String)
  | nameExpected (form : String) (got : Value)
  | parametersMissing (form : String)
  | parameterKind (form : String) (got : Value)
  | parametersRepeated (form : String)
  | functionDefined (name : String) (arity : Nat) (module : String)
  | misplacedMacro (form : String)
  -- evaluation
  | undefinedLocal (name : String) (arity : Nat) (module : String)
  | undefinedRemote (module name : String) (arity : Nat)
  | moduleMissing (module name : String) (arity : Nat)
  | undefinedVariable (name : String) (context : Context)
  | numberExpected (got : Value)
  | listExpected (got : Value)
  | emptyList (operation : String)
  | indexRange (index : Number)
  | raised (message : String)
  | divisionByZero
  | cannotCall (head : Value)
  | unsupportedForm (form : String)
  | bindingShape
  | formArity (form : String) (expected : String) (count : Nat)
  | definitionInFunction (form : String)
  | digitLimit

/-- The objection to an integer with too many digits, which are counted when it is read. -/
def digitLimitMessage (digits : Option Nat) : String :=
  "Exceeds the limit (" ++ toString Number.maxDigits ++ " digits) for integer string conversion"
    ++ (match digits with
      | some n => ": value has " ++ toString n ++ " digits"
      | none => "")
    ++ "; use sys.set_int_max_str_digits() to increase the limit"

namespace Cause

def kind : Cause → ErrorKind
  | splicePlace => .spliceArity
  | duplicateMacro .. => .duplicateMacro
  | specialForm .. => .specialFormOverride
  | registryFinalized .. | scopeFinalized .. | scopeConflict .. => .registryFrozen
  | depthExceeded .. => .expansionDepth
  | aliasName .. | moduleExpected .. | aliasArity .. | dependencyArity .. | nestedModule ..
  | moduleNameMissing | moduleDefined .. | nameMissing .. | nameExpected .. | parametersMissing ..
  | parameterKind .. | parametersRepeated .. | functionDefined .. | misplacedMacro .. => .compile
  | undefinedLocal .. | undefinedRemote .. | moduleMissing .. => .unresolvedCall
  | undefinedVariable .. | numberExpected .. | listExpected .. | emptyList .. | indexRange ..
  | raised .. | divisionByZero | cannotCall .. | unsupportedForm .. | bindingShape | formArity ..
  | definitionInFunction .. | digitLimit => .evaluation
  | _ => .malformedNode

/-- A name with its arity. -/
def signature (name : String) (arity : Nat) : String :=
  name ++ "/" ++ toString arity

def message : Cause → String
  | emptyHead => "Call head must not be empty"
  | headType t => "Call head must be a name or a node, got " ++ t
  | infoType t => "Node meta must be a mapping, got " ++ t
  | contextAsArguments head =>
    "Call " ++ head.describe ++ " carries a context token instead of arguments"
  | argumentsType t => "Call arguments must be a sequence, got " ++ t
  | variableName got => "Variable name must be a non-empty string, got " ++ got.describe
  | variableContext name t => "Variable " ++ name ++ " must carry a context token, got " ++ t
  | atomName got => "Atom name must be a non-empty string, got " ++ got.describe
  | notScope got => "Not a context token or scope name: " ++ got.describe
  | tupleSize size => "Tuple literals must have exactly two elements, got " ++ toString size
  | notTree got => "Not a tree value: " ++ got.describe
  | notNumber got => "Not a number: " ++ got.describe
  | notText got => "Not a string: " ++ got.describe
  | pairSize size => "Pair literal must have exactly two elements, got " ++ toString size
  | outsideQuote form => form ++ " used outside of a quote"
  | cannotUnquote got why => "cannot unquote " ++ got.describe ++ ": " ++ why.message
  | spliceOperand got => "unquote_splicing expects a list, got " ++ got.describe
  | splicePlace => "unquote_splicing used outside of an argument list"
  | escapeOperand got => "var! expects a variable, got " ++ got.describe
  | escapeArity count => "var! expects 1 or 2 arguments, got " ++ toString count
  | escapeTarget got => "var! target must be a scope name, got " ++ got.describe
  | duplicateMacro scope name arity =>
    "macro " ++ scope ++ "." ++ signature name arity ++ " is already defined"
  | specialForm name arity =>
    "cannot define macro " ++ signature name arity ++ ": " ++ name ++ " is a special form"
  | registryFinalized unit scope =>
    "registry of " ++ unit ++ " is finalized; cannot change scope " ++ scope
  | scopeFinalized scope => "scope " ++ scope ++ " was finalized by another compilation unit"
  | scopeConflict scope owner unit =>
    "scope " ++ scope ++ " is defined by both " ++ owner ++ " and " ++ unit
  | depthExceeded name arity maxDepth =>
    "expansion of " ++ signature name arity ++ " exceeded the maximum depth of " ++ toString maxDepth
  | invalidResult name arity why =>
    "macro " ++ signature name arity ++ " returned an invalid tree: " ++ why.message
  | aliasName short => "alias name must be a single segment, got " ++ short
  | moduleExpected got => "expected a module name, got " ++ got.render false
  | aliasArity count => "alias expects 1 or 2 arguments, got " ++ toString count
  | dependencyArity form count => form ++ " expects 1 argument, got " ++ toString count
  | nestedModule scope => "defmodule cannot be nested (inside " ++ scope ++ ")"
  | moduleNameMissing => "defmodule expects a module name"
  | moduleDefined name => "module " ++ name ++ " is already defined"
  | nameMissing form => form ++ " expects a name"
  | nameExpected form got => form ++ " expects a name, got " ++ got.render false
  | parametersMissing form => form ++ " expects a parameter list"
  | parameterKind form got => form ++ " parameters must be variables, got " ++ got.render false
  | parametersRepeated form => form ++ " has duplicate parameter names"
  | functionDefined name arity module =>
    "function " ++ signature name arity ++ " is already defined in " ++ module
  | misplacedMacro form => form ++ " must appear at the top level of a module"
  | undefinedLocal name arity module =>
    "undefined function " ++ signature name arity ++ " in " ++ module
  | undefinedRemote module name arity =>
    "undefined function " ++ module ++ "." ++ signature name arity
  | moduleMissing module name arity =>
    "undefined function " ++ module ++ "." ++ signature name arity
      ++ " (module " ++ module ++ " is not available)"
  | undefinedVariable name context =>
    "undefined variable " ++ (Value.var name context {}).render true
  | numberExpected got => "expected a number, got " ++ got.render false
  | listExpected got => "expected a list, got " ++ got.render false
  | emptyList operation => operation ++ " of an empty list"
  | indexRange index => "index " ++ index.text ++ " out of range"
  | raised message => message
  | divisionByZero => "division by zero"
  | cannotCall head => "cannot call " ++ head.render false
  | unsupportedForm form => "special form " ++ form ++ " is not supported by the evaluator"
  | bindingShape => "= expects a variable and a value"
  | formArity form expected count => form ++ " expects " ++ expected ++ ", got " ++ toString count
  | definitionInFunction form => form ++ " cannot be used inside a function body"
  | digitLimit => digitLimitMessage none

/-- Is every number that the message shows short enough to be written? -/
def isWritable : Cause → Bool
  | contextAsArguments got | variableName got | atomName got | notScope got | notTree got | notNumber got
  | notText got | cannotUnquote got _ | spliceOperand got | escapeOperand got | escapeTarget got
  | moduleExpected got | nameExpected _ got | parameterKind _ got | numberExpected got | listExpected got
  | cannotCall got => got.isWritable
  | indexRange index => index.isWritable
  | _ => true

end Cause

/-- What the reader can object to. -/
inductive ReadCause where
  | unterminatedText
  | invalidVariable (word : String)
  | expected (want : TokenClass) (got : Option Lexeme)
  | unexpectedEnd
  | unexpected (got : Lexeme)
  | operandMissing (after : String)
  | emptyForm
  | unterminated (what : String) (start : Position)
  | invalidHead (got : Option Lexeme)
  | invalidRemoteName (name : String)
  | other (message : String)

namespace ReadCause

/-- The class and content of a token, or of the end of the text. -/
def found (l : Option Lexeme) : String :=
  (Lexeme.classOf l).name ++ " (" ++ Lexeme.describeOr l ++ ")"

def message : ReadCause → String
  | unterminatedText => "Unterminated string"
  | invalidVariable word => "Invalid variable name: " ++ word
  | expected want got => "Expected " ++ want.name ++ ", got " ++ found got
  | unexpectedEnd => "Unexpected end of input"
  | unexpected got => "Unexpected " ++ found (some got)
  | operandMissing after => "Expected expression after " ++ after
  | emptyForm => "Empty form <>"
  | unterminated what start => "Unterminated " ++ what ++ " starting at " ++ start.text
  | invalidHead got => "Invalid form head " ++ found got
  | invalidRemoteName name => "Invalid dotted name: " ++ name
  | other message => message

end ReadCause

/-- Arguments of the compiler itself that it cannot work with. -/
inductive UsageCause where
  | maxDepth (got : Int)
  | functionName (got : String)
  | visibility (got : String)
  -- annotations given as a sequence of entries
  | notEntries (typeName : String)
  | entryType (index : Nat)
  | entrySize (index size : Nat)
  -- integers with too many digits to be read or written
  | digitLimit (digits : Option Nat)

namespace UsageCause

def message : UsageCause → String
  | maxDepth got => "max_depth must be positive, got " ++ toString got
  | functionName got => "Expected Module.function, got " ++ Text.quoted got
  | visibility got => Text.quoted got ++ " is not a valid Visibility"
  | notEntries typeName => Text.quoted typeName ++ " object is not iterable"
  | entryType index =>
    "cannot convert dictionary update sequence element #" ++ toString index ++ " to a sequence"
  | entrySize index size =>
    "dictionary update sequence element #" ++ toString index ++ " has length " ++ toString size
      ++ "; 2 is required"
  | digitLimit digits => digitLimitMessage digits

end UsageCause

/-- Numbers that no double can hold. -/
inductive OverflowCause where
  | intTooLarge
  | quotientTooLarge
deriving DecidableEq, Repr

namespace OverflowCause

def message : OverflowCause → String
  | intTooLarge => "int too large to convert to float"
  | quotientTooLarge => "integer division result too large for a float"

end OverflowCause

inductive Error where
  /-- An error on a node with these annotations. -/
  | located (cause : Cause) (info : Info) (file : Option String)
  /-- An error of the reader, at a position unless there is no token at all. -/
  | reading (file : String) (position : Option Position) (cause : ReadCause)
  | usage (cause : UsageCause)
  | fileMissing (name : String)
  | isDirectory (path : String)
  | overflow (cause : OverflowCause)
  /-- A tuple, or the list of what its members became, has fewer than the two members of a pair. -/
  | tooShort (sequence : String)
  /-- An option was set to no value where one is needed. -/
  | valueAbsent
  /-- Function calls were nested deeper than the evaluator was allowed to go. -/
  | callDepth

namespace Cause

/-- The error with this cause on a node with these annotations, unless its message would show an integer that is too
long to be written. -/
def on (cause : Cause) (info : Info) : Error :=
  if cause.isWritable then .located cause info none else .usage (.digitLimit none)

/-- The error with this cause at no place in particular. -/
def nowhere (cause : Cause) : Error :=
  cause.on {}

end Cause

namespace Error

/-- Names the file of an error that has none yet. -/
def inFile (file : String) : Error → Error
  | located cause info none => located cause info (some file)
  | e => e

/-- File, line and column, as far as they are known. A column without a line says nothing. -/
def place (info : Info) (file : Option String) : List String :=
  let file := match file with
    | some name => if name.isEmpty then [] else [name]
    | none => []
  let location := info.location
  if location.isEmpty then file else file ++ [location]

def message : Error → String
  | located cause info file => match place info file with
    | [] => cause.message
    | parts => ":".intercalate parts ++ ": " ++ cause.message
  | reading file (some p) cause => file ++ ":" ++ p.text ++ ": " ++ cause.message
  | reading file none cause => file ++ ": " ++ cause.message
  | usage cause => cause.message
  | fileMissing name => "Source file not found: " ++ name
  | isDirectory path => "[Errno 21] Is a directory: " ++ Text.quoted path
  | overflow cause => cause.message
  | tooShort sequence => sequence ++ " index out of range"
  | valueAbsent => "an option has no value"
  | callDepth => "function calls are nested too deeply"

end Error

end MacroLang
