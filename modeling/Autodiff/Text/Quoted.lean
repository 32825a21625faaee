import Autodiff.Text.Hex
import Autodiff.Text.Hidden

/-!
# Quoted text

A text in quotes, with escapes for quotes, backslashes and every character that does not show on
its own.
-/

namespace Autodiff.Text

def escape (c : Char) : String :=
  if c = '"' then "\\\""
  else if c = '\\' then "\\\\"
  else if c = '\x00' then "\\0"
  else if c = '\t' then "\\t"
  else if c = '\n' then "\\n"
  else if c = '\r' then "\\r"
  else if shows c then String.singleton c
  else "\\u\x7b" ++ Hex.digits c.toNat ++ "\x7d"

def quote (s : String) : String := "\"" ++ String.join (s.toList.map escape) ++ "\""

def quoteList (ss : List String) : String := "[" ++ ", ".intercalate (ss.map quote) ++ "]"

end Autodiff.Text
