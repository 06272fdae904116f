/-!
# Special forms

The names that the language keeps for itself. None of them can be the name of a macro.
-/

namespace MacroLang

def specialForms : List String :=
  [ -- quoting and hygiene
    "quote", "unquote", "unquote_splicing", "var!",
    -- structure
    "__block__", "__aliases__", "=", ".", "^", "&", "::", "\x7b\x7d", "%\x7b\x7d",
    -- scopes and definitions
    "defmodule", "def", "defp", "defmacro", "defmacrop", "alias", "import", "require",
    "__MODULE__", "__CALLER__", "__ENV__", "__DIR__",
    -- control
    "fn", "case", "cond", "receive", "try", "for", "with", "super" ]

def isSpecialForm (name : String) : Bool :=
  specialForms.contains name

end MacroLang
