import MacroLang.Number.Basic
import MacroLang.Text.Quoted

/-!
# Tokens

A source text is a sequence of tokens, each with the position it starts at, and the position where the
text ends. Lines and columns count from one, columns in code points.
-/

namespace MacroLang

structure Position where
  line : Nat
  column : Nat
deriving DecidableEq, Repr

namespace Position

def start : Position := ⟨1, 1⟩

/-- The position behind a character. -/
def step (p : Position) (c : Char) : Position :=
  if c = '\n' then ⟨p.line + 1, 1⟩ else ⟨p.line, p.column + 1⟩

/-- The position behind a text. -/
def steps (p : Position) (cs : List Char) : Position :=
  cs.foldl step p

def text (p : Position) : String :=
  toString p.line ++ ":" ++ toString p.column

end Position

/-- The shorthands for quoting: a backquote, `~` and `~!`. -/
inductive Sign where
  | quote
  | unquote
  | splice
deriving DecidableEq, Repr

namespace Sign

def spelling : Sign → String
  | quote => "\x60"
  | unquote => "~"
  | splice => "~!"

/-- The form that a shorthand stands for. -/
def form : Sign → String
  | quote => "quote"
  | unquote => "unquote"
  | splice => "unquote_splicing"

end Sign

inductive Lexeme where
  | langle | rangle
  | lparen | rparen
  | lbracket | rbracket
  | atom (name : String)
  | text (s : String)
  | number (n : Number)
  | var (name : String)
  | sign (s : Sign)

structure Token where
  lexeme : Lexeme
  position : Position

/-- The tokens of a source text and the position of its end. -/
structure Tokens where
  tokens : List Token
  stop : Position

/-- The classes of tokens. The end of the text counts as a token of its own class. -/
inductive TokenClass where
  | langle | rangle
  | lparen | rparen
  | lbracket | rbracket
  | atom | text | number | var
  | quote | unquote | splice
  | stop
deriving DecidableEq, Repr

namespace TokenClass

def name : TokenClass → String
  | langle => "LANGLE"
  | rangle => "RANGLE"
  | lparen => "LPAREN"
  | rparen => "RPAREN"
  | lbracket => "LBRACKET"
  | rbracket => "RBRACKET"
  | atom => "ATOM"
  | text => "STRING"
  | number => "NUMBER"
  | var => "LOCAL_VAR"
  | quote => "QUASIQUOTE"
  | unquote => "UNQUOTE"
  | splice => "SPLICE_UNQUOTE"
  | stop => "EOF"

def all : List TokenClass :=
  [langle, rangle, lparen, rparen, lbracket, rbracket, atom, text, number, var, quote, unquote,
    splice, stop]

def ofName? (s : String) : Option TokenClass :=
  all.find? (·.name == s)

end TokenClass

namespace Lexeme

def tokenClass : Lexeme → TokenClass
  | langle => .langle
  | rangle => .rangle
  | lparen => .lparen
  | rparen => .rparen
  | lbracket => .lbracket
  | rbracket => .rbracket
  | atom _ => .atom
  | text _ => .text
  | number _ => .number
  | var _ => .var
  | sign .quote => .quote
  | sign .unquote => .unquote
  | sign .splice => .splice

/-- What a token holds: a name, the characters of a text without its quotes, or a punctuation mark. -/
def content : Lexeme → String
  | langle => "<"
  | rangle => ">"
  | lparen => "("
  | rparen => ")"
  | lbracket => "["
  | rbracket => "]"
  | atom name => name
  | text s => s
  | number n => n.text
  | var name => name
  | sign s => s.spelling

/-- The content as messages show it. -/
def describe : Lexeme → String
  | number n => n.text
  | l => Text.quoted l.content

/-- The class of a token, or of the end of the text. -/
def classOf (l : Option Lexeme) : TokenClass :=
  (l.map tokenClass).getD .stop

/-- The content of a token as messages show it, or the word for the end of the text. -/
def describeOr (l : Option Lexeme) : String :=
  (l.map describe).getD "None"

end Lexeme

/-- A token, or the end of the text, with its position. -/
def Token.describe (l : Option Lexeme) (p : Position) : String :=
  "Token(" ++ (Lexeme.classOf l).name ++ ", " ++ Lexeme.describeOr l ++ ", " ++ p.text ++ ")"

namespace Tokens

/-- The token at an index, the end of the text being the last one. -/
def get? (ts : Tokens) (i : Nat) : Option (Option Lexeme × Position) :=
  match ts.tokens[i]? with
  | some t => some (some t.lexeme, t.position)
  | none => if i = ts.tokens.length then some (none, ts.stop) else none

/-- The first token, or the end of the text. -/
def current (ts : Tokens) : Option Lexeme × Position :=
  match ts.tokens with
  | t :: _ => (some t.lexeme, t.position)
  | [] => (none, ts.stop)

/-- All tokens with the end of the text as the last one. -/
def all (ts : Tokens) : List (Option Lexeme × Position) :=
  ts.tokens.map (fun t => (some t.lexeme, t.position)) ++ [(none, ts.stop)]

end Tokens

end MacroLang
