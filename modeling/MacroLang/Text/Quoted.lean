import MacroLang.Text.Printable

/-!
# Quoted text

Text as messages show it: between quotes, with the quote in use, the backslash, line ends and tabs
escaped by a backslash, and every other character that is not printable written as its code point in
hexadecimal. Single quotes are used unless the text holds a single quote and no double quote.
-/

namespace MacroLang.Text

/-- At least `width` hexadecimal digits of `n`, lower case. -/
def hex (width n : Nat) : List Char :=
  let digits := Nat.toDigits 16 n
  List.replicate (width - digits.length) '0' ++ digits

/-- The code point of a character behind the shortest of the marks `\x`, `\u` and `\U`. -/
def escapeCode (c : Char) : List Char :=
  if c.toNat < 0x100 then '\\' :: 'x' :: hex 2 c.toNat
  else if c.toNat < 0x10000 then '\\' :: 'u' :: hex 4 c.toNat
  else '\\' :: 'U' :: hex 8 c.toNat

def escapeChar (delimiter c : Char) : List Char :=
  if c = delimiter ∨ c = '\\' then ['\\', c]
  else if c = '\n' then ['\\', 'n']
  else if c = '\r' then ['\\', 'r']
  else if c = '\t' then ['\\', 't']
  else if isPrintable c then [c]
  else escapeCode c

/-- The quote that encloses a text. -/
def delimiterFor (cs : List Char) : Char :=
  if cs.contains '\'' && !cs.contains '\"' then '\"' else '\''

def quoted (s : String) : String :=
  let delimiter := delimiterFor s.toList
  String.ofList (delimiter :: s.toList.flatMap (escapeChar delimiter) ++ [delimiter])

end MacroLang.Text
