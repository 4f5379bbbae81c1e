import Stylesheet.Text.Visible

/-!
# Quoted text

Text in double quotes on one line: quotes, backslashes and characters without a visible form are escaped.
-/

namespace Stylesheet.Text

def hexadecimal (n : Nat) : List Char := Nat.toDigits 16 n

def quotedChar (c : Char) : List Char :=
  if c = '"' ∨ c = '\\' then ['\\', c]
  else if c = '\n' then ['\\', 'n']
  else if c = '\r' then ['\\', 'r']
  else if c = '\t' then ['\\', 't']
  else if c = '\x00' then ['\\', '0']
  else if isVisible c then [c]
  else '\\' :: 'u' :: '\x7b' :: hexadecimal c.toNat ++ ['\x7d']

def quoted (s : String) : String := .ofList ('"' :: s.toList.flatMap quotedChar ++ ['"'])

end Stylesheet.Text
